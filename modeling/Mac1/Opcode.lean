import Mac1.Text.Uppercase

/-! The operations of the machine, with the mnemonic and the kind of parameter of each. What an operation
    does is said in `Mac1.Machine.Apply`. -/

namespace Mac1

/-- What the parameter of an operation stands for. -/
inductive ParameterKind where
  /-- There is no parameter. -/
  | absent
  /-- Any word. -/
  | constant
  /-- A distance from the stack pointer, below the memory size. -/
  | stackOffset
  /-- A memory address. -/
  | address
  /-- A label, which stands for the index of an instruction. -/
  | label
  deriving DecidableEq, Repr

namespace ParameterKind

/-- The word that messages use for the kind. -/
def description : ParameterKind → String
  | .absent => "none"
  | .constant => "number"
  | .stackOffset => "offset"
  | .address => "address"
  | .label => "label"

/-- A parameter is required. -/
def isRequired (k : ParameterKind) : Bool := k != .absent

end ParameterKind

/-- An operation of the machine. In the effects below, `x` is the parameter. -/
inductive Opcode where
  /-- `ac := x` -/
  | loco
  /-- `ac := ac - m[sp + x]` -/
  | subl
  /-- `ac := ac + m[sp + x]` -/
  | addl
  /-- `m[sp + x] := ac` -/
  | stol
  /-- `ac := m[sp + x]` -/
  | lodl
  /-- `ac := m[x]` -/
  | lodd
  /-- `m[x] := ac` -/
  | stod
  /-- `ac := ac + m[x]` -/
  | addd
  /-- `ac := ac - m[x]` -/
  | subd
  /-- `sp := sp - 1; m[sp] := ac` -/
  | push
  /-- `ac := m[sp]; sp := sp + 1` -/
  | pop
  /-- `sp := sp - 1; m[sp] := m[ac]` -/
  | pshi
  /-- `m[ac] := m[sp]; sp := sp + 1` -/
  | popi
  /-- `if ac ≥ 0 then pc := x` -/
  | jpos
  /-- `if ac = 0 then pc := x` -/
  | jzer
  /-- `if ac < 0 then pc := x` -/
  | jneg
  /-- `if ac ≠ 0 then pc := x` -/
  | jnze
  /-- `pc := x` -/
  | jump
  /-- `sp := sp - 1; m[sp] := pc; pc := x` -/
  | call
  /-- `pc := m[sp]; sp := sp + 1` -/
  | retn
  /-- `ac :=: sp` -/
  | swap
  /-- `sp := sp + x` -/
  | insp
  /-- `sp := sp - x` -/
  | desp
  deriving DecidableEq, Repr

namespace Opcode

/-- All operations, in their usual order. -/
def all : List Opcode :=
  [.loco, .subl, .addl, .stol, .lodl, .lodd, .stod, .addd, .subd, .push, .pop, .pshi, .popi,
    .jpos, .jzer, .jneg, .jnze, .jump, .call, .retn, .swap, .insp, .desp]

theorem mem_all (op : Opcode) : op ∈ all := by
  cases op <;> decide

/-- The mnemonic of an operation, in capital letters. -/
def mnemonic : Opcode → String
  | .loco => "LOCO"
  | .subl => "SUBL"
  | .addl => "ADDL"
  | .stol => "STOL"
  | .lodl => "LODL"
  | .lodd => "LODD"
  | .stod => "STOD"
  | .addd => "ADDD"
  | .subd => "SUBD"
  | .push => "PUSH"
  | .pop => "POP"
  | .pshi => "PSHI"
  | .popi => "POPI"
  | .jpos => "JPOS"
  | .jzer => "JZER"
  | .jneg => "JNEG"
  | .jnze => "JNZE"
  | .jump => "JUMP"
  | .call => "CALL"
  | .retn => "RETN"
  | .swap => "SWAP"
  | .insp => "INSP"
  | .desp => "DESP"

theorem mnemonic_injective {a b : Opcode} (h : a.mnemonic = b.mnemonic) : a = b := by
  revert h
  cases a <;> cases b <;> decide

/-- The kind of parameter that an operation takes. -/
def parameterKind : Opcode → ParameterKind
  | .loco => .constant
  | .lodd | .stod | .addd | .subd => .address
  | .lodl | .stol | .addl | .subl | .insp | .desp => .stackOffset
  | .jpos | .jzer | .jneg | .jnze | .jump | .call => .label
  | .push | .pop | .pshi | .popi | .retn | .swap => .absent

/-- How an operation is written: its mnemonic, and the kind of its parameter in brackets. -/
def usage (op : Opcode) : String :=
  match op.parameterKind with
  | .absent => op.mnemonic
  | kind => op.mnemonic ++ " [" ++ kind.description ++ "]"

/-- The operation with a given mnemonic, up to the case of ASCII letters. -/
def ofMnemonic? (name : String) : Option Opcode :=
  all.find? fun op => Text.eqIgnoreAsciiCase op.mnemonic name

end Opcode

end Mac1
