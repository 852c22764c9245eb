import Mac1.Word

/-! Memory cells that the machine sets when it is made, and that every program may name without declaring
    them. -/

namespace Mac1

/-- A cell with a reserved name, its address, and the value that it holds in a new machine. -/
structure SpecialAddress where
  name : String
  address : Nat
  value : Word
  deriving DecidableEq, Repr

namespace SpecialAddress

/-- The cell that holds the constant one. -/
def one : SpecialAddress := ⟨"one", 0, 1⟩

/-- All special addresses. -/
def all : List SpecialAddress := [one]

end SpecialAddress

end Mac1
