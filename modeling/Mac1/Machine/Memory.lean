import Mac1.Machine.Fault

/-! Memory: a row of cells that each hold a word. The machine uses words as addresses; one that stands for no
    cell is a fault. -/

namespace Mac1

/-- The cells of a memory. -/
structure Memory where
  cells : Array Word
  deriving DecidableEq, Repr

namespace Memory

/-- A memory of a given size, whose cells are filled by address. -/
def ofFn (size : Nat) (cell : Nat → Word) : Memory := ⟨Array.ofFn fun i : Fin size => cell i⟩

/-- The number of cells, which no write changes. -/
@[inline] def size (m : Memory) : Nat := m.cells.size

/-- The memory has no cells. -/
def isEmpty (m : Memory) : Bool := m.size == 0

/-- The word in a cell, if there is such a cell. -/
@[inline] def get? (m : Memory) (index : Nat) : Option Word := m.cells[index]?

/-- Sets a cell, if there is such a cell. -/
@[inline] def set (m : Memory) (index : Nat) (value : Word) : Memory :=
  ⟨m.cells.setIfInBounds index value⟩

/-- The index of the cell at an address. -/
@[inline] def check (m : Memory) (address : Word) : Except Fault Nat :=
  match Word.index? m.size address with
  | some index => .ok index
  | none => .error (.outOfBounds address)

/-- The word at an address. -/
@[inline] def read (m : Memory) (address : Word) : Except Fault Word :=
  match Word.index? m.size address with
  | some index => .ok (m.cells.getD index 0)
  | none => .error (.outOfBounds address)

/-- Stores a word at an address. -/
def write (m : Memory) (address value : Word) : Except Fault Memory :=
  (m.check address).map fun index => m.set index value

@[simp] theorem size_ofFn (n : Nat) (cell : Nat → Word) : (ofFn n cell).size = n := by
  simp [ofFn, size]

@[simp] theorem size_set (m : Memory) (index : Nat) (value : Word) : (m.set index value).size = m.size := by
  simp [set, size]

theorem get?_set (m : Memory) (index : Nat) (value : Word) (i : Nat) :
    (m.set index value).get? i = if i = index ∧ i < m.size then some value else m.get? i := by
  unfold set get? size
  by_cases h : i = index
  · subst h
    by_cases hi : i < m.cells.size <;> simp [hi]
  · simp [h, Ne.symm h]

end Memory

end Mac1
