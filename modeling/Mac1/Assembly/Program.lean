import Mac1.Assembly.Symbols

/-! Assembled programs: instructions, each with its effect on the machine and its caption, which is what a
    trace shows of it. -/

namespace Mac1

/-- What an instruction does. -/
inductive Effect where
  /-- Applies an operation to its parameter, which is 0 if the operation takes none. -/
  | apply (op : Opcode) (x : Word)
  /-- Stores the initial value of an alias. -/
  | store (address : Nat) (value : Word)
  | halt
  deriving DecidableEq, Repr

/-- An instruction, its caption, and the line that it comes from. -/
structure Instruction where
  effect : Effect
  caption : String
  line : Option Nat
  deriving DecidableEq, Repr

namespace Instruction

/-- What precedes the command in a caption: the index of the instruction, and its label if it has one. -/
def heading (label : Option String) (index : Nat) : String :=
  match label with
  | some label => label ++ "(=" ++ Decimal.render index ++ "): "
  | none => "(" ++ Decimal.render index ++ "): "

/-- The instruction that sets the initial value of an alias. -/
def ofInitial (a : Alias) (value : Word) (index : Nat) : Instruction :=
  ⟨.store a.address value, heading none index ++ a.declaration.render, a.line⟩

end Instruction

/-- The symbols and instructions of a program. -/
structure Program where
  instructions : Array Instruction
  symbols : SymbolTable
  deriving DecidableEq, Repr

namespace Program

/-- The number of instructions. -/
def size (p : Program) : Nat := p.instructions.size

/-- The captions of the instructions, in order. -/
def captions (p : Program) : List String := p.instructions.toList.map (·.caption)

end Program

end Mac1
