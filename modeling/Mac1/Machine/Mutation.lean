import Mac1.Text.Decimal

/-! The changes that an operation makes, as a trace shows them: each assignment to a register or cell, and
    before a sum or difference the operand that is used. -/

namespace Mac1

/-- Where the operand of a sum or difference is read. -/
inductive Operand where
  | cell (address : Word)
  | stack (offset : Word)
  deriving DecidableEq, Repr

/-- The text of an operand. -/
def Operand.render : Operand → String
  | .cell address => "m[" ++ address.render ++ "]"
  | .stack offset => "m[sp+" ++ offset.render ++ "]"

/-- One entry of the log of an operation. -/
inductive Mutation where
  | ac (value : Word)
  | pc (value : Word)
  /-- The stack pointer, counted from the top of memory: 0, or its value less the memory size. -/
  | sp (offset : Int)
  | cell (address : Nat) (value : Word)
  /-- What is about to be added to the accumulator. -/
  | adding (operand : Operand) (value : Word)
  /-- What is about to be subtracted from the accumulator. -/
  | subtracting (operand : Operand) (value : Word)
  deriving DecidableEq, Repr

/-- The text of an entry. -/
def Mutation.render : Mutation → String
  | .ac value => "ac := " ++ value.render
  | .pc value => "pc := " ++ value.render
  | .sp offset => "sp := " ++ Decimal.render offset
  | .cell address value => "m[" ++ Decimal.render address ++ "] := " ++ value.render
  | .adding operand value => "ac += " ++ operand.render ++ "=" ++ value.render
  | .subtracting operand value => "ac -= " ++ operand.render ++ "=" ++ value.render

end Mac1
