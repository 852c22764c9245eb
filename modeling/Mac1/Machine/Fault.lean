import Mac1.Text.Decimal

/-! Why an operation fails. Only `outOfBounds` can arise on a machine whose stack pointer lies inside
    memory. -/

namespace Mac1

/-- Why an operation fails. -/
inductive Fault where
  /-- The operation uses an address outside of memory. -/
  | outOfBounds (address : Word)
  /-- The stack pointer stands at no memory cell. -/
  | noStackCell (sp : Nat)
  deriving DecidableEq, Repr

namespace Fault

/-- What went wrong. -/
def message : Fault → String
  | .outOfBounds address => "memory access at " ++ address.render ++ " is out of bounds"
  | .noStackCell sp => "no memory cell at stack pointer " ++ Decimal.render sp

/-- Where to look for the mistake. -/
def help : Fault → String
  | .outOfBounds _ => "check that the stack pointer (or ac, for PSHI/POPI) points where it should"
  | .noStackCell _ => "check that the stack pointer lies inside memory"

end Fault

/-- A fault, and the index and caption of the instruction that failed. -/
structure RuntimeError where
  fault : Fault
  index : Nat
  caption : String
  deriving DecidableEq, Repr

namespace RuntimeError

/-- What went wrong, with the instruction. -/
def message (e : RuntimeError) : String :=
  "instruction '" ++ e.caption ++ "' failed: " ++ e.fault.message

/-- Where to look for the mistake. -/
def help (e : RuntimeError) : String := e.fault.help

end RuntimeError

end Mac1
