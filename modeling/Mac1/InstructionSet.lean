import Mac1.Opcode

/-! The operations that a program may use. An exercise can restrict the instruction set; `standard` holds
    every operation. Commands are looked up by the uppercase form of their text: `mem_ofList` and
    `get?_eq_some_iff` together say which texts name which operation. -/

namespace Mac1

/-- Why a command is refused. -/
inductive CommandError where
  | notFound (name : String)
  | parameterMissing (name : String)
  | parameterUnwanted (name : String)
  deriving DecidableEq, Repr

/-- Operations that a program may use, each held once. -/
structure InstructionSet where
  opcodes : List Opcode
  nodup : opcodes.Nodup

namespace InstructionSet

/-- The set without operations. -/
def empty : InstructionSet := ⟨[], List.nodup_nil⟩

/-- Adds an operation after the others, unless the set holds it. -/
def insert (s : InstructionSet) (op : Opcode) : InstructionSet :=
  if h : op ∈ s.opcodes then s
  else
    ⟨s.opcodes ++ [op], by
      rw [List.nodup_append]
      refine ⟨s.nodup, by simp, ?_⟩
      intro a ha b hb hab
      rw [List.mem_singleton] at hb
      exact h (hb ▸ hab ▸ ha)⟩

/-- The operations of a list, in the order in which they first occur. -/
def ofList (ops : List Opcode) : InstructionSet := ops.foldl insert empty

theorem mem_insert {s : InstructionSet} {op a : Opcode} : a ∈ (s.insert op).opcodes ↔ a ∈ s.opcodes ∨ a = op := by
  unfold insert
  split
  · next h => exact ⟨Or.inl, fun h' => h'.elim id fun e => e ▸ h⟩
  · simp

theorem mem_ofList {ops : List Opcode} {a : Opcode} : a ∈ (ofList ops).opcodes ↔ a ∈ ops := by
  have key : ∀ (l : List Opcode) (s : InstructionSet),
      a ∈ (l.foldl insert s).opcodes ↔ a ∈ s.opcodes ∨ a ∈ l := by
    intro l
    induction l with
    | nil => simp
    | cons op l ih =>
      intro s
      rw [List.foldl_cons, ih, mem_insert, List.mem_cons, or_assoc]
  rw [ofList, key]
  simp [empty]

/-- The full instruction set. -/
def standard : InstructionSet := ofList Opcode.all

/-- The number of operations. -/
def size (s : InstructionSet) : Nat := s.opcodes.length

/-- The operation whose mnemonic is the uppercase form of a name, if the set holds it. -/
def get? (s : InstructionSet) (name : String) : Option Opcode :=
  let key := Text.upper name
  s.opcodes.find? (·.mnemonic == key)

/-- A text names an operation of the set if its uppercase form is the mnemonic. -/
theorem get?_eq_some_iff {s : InstructionSet} {name : String} {op : Opcode} :
    s.get? name = some op ↔ op ∈ s.opcodes ∧ op.mnemonic = Text.upper name := by
  unfold get?
  constructor
  · intro h
    exact ⟨List.mem_of_find?_eq_some h, by simpa using List.find?_some h⟩
  · rintro ⟨hmem, hname⟩
    cases h : s.opcodes.find? (·.mnemonic == Text.upper name) with
    | none => exact absurd hname (by simpa using List.find?_eq_none.mp h op hmem)
    | some a =>
      have ha : a.mnemonic = Text.upper name := by simpa using List.find?_some h
      rw [Opcode.mnemonic_injective (ha.trans hname.symm)]

/-- The operation of a command, given whether a parameter stands after it. An unknown name is reported
    before a missing or unwanted parameter. -/
def find (s : InstructionSet) (name : String) (hasParameter : Bool) : Except CommandError Opcode :=
  match s.get? name with
  | none => .error (.notFound (Text.upper name))
  | some op =>
    match op.parameterKind.isRequired, hasParameter with
    | true, false => .error (.parameterMissing op.mnemonic)
    | false, true => .error (.parameterUnwanted op.mnemonic)
    | _, _ => .ok op

end InstructionSet

/-- The command that halts the machine. It is no operation: it is known whatever the instruction set, and up
    to the case of ASCII letters. -/
def haltMnemonic : String := "END"

namespace CommandError

/-- What is wrong with the command. -/
def message : CommandError → String
  | .notFound name => "command '" ++ name ++ "' not found"
  | .parameterMissing name => "command '" ++ name ++ "' requires a parameter"
  | .parameterUnwanted name => "command '" ++ name ++ "' does not accept a parameter"

/-- How the command can be put right. There is no advice for a missing parameter of an unknown command. -/
def help : CommandError → Option String
  | .notFound _ => some "check the spelling of the mnemonic against the list of known commands"
  | .parameterMissing name =>
    (InstructionSet.standard.get? name).map fun op => "this command is written as `" ++ op.usage ++ "`"
  | .parameterUnwanted _ => some "try removing the parameter"

end CommandError

end Mac1
