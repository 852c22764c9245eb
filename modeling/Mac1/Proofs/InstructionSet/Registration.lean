import Mathlib.Data.Finset.Card
import Mathlib.Data.List.Induction
import Mac1.Proofs.Indexing
import Mac1.Proofs.Assembly.Meaning

/-! Registering operations. A register keeps operations in a list and the place of each, by its mnemonic, apart from the
    list. A look-up goes to the place without asking whether it lies in the list. Each registration keeps the two in
    step, so a register finds exactly what the instruction set of its operations does, and never looks outside. -/

namespace Mac1

/-- Operations in the order in which they were registered, and the place of each by its mnemonic. -/
structure Register where
  opcodes : Array Opcode := #[]
  places : Std.HashMap String Nat := ∅

namespace Register

/-- Registers an operation behind the others, unless its mnemonic has a place. -/
def insert (r : Register) (op : Opcode) : Register :=
  if op.mnemonic ∈ r.places then r
  else ⟨r.opcodes.push op, r.places.insert op.mnemonic r.opcodes.size⟩

/-- Registers operations one after the other. -/
def ofList (ops : List Opcode) : Register := ops.foldl insert {}

/-- The operation at the place of a name's uppercase form, if that has one. A place outside the list is an error. -/
def get? (r : Register) (name : String) : Except Nat (Option Opcode) :=
  match r.places[Text.upper name]? with
  | none => .ok none
  | some place =>
    match r.opcodes[place]? with
    | none => .error place
    | some op => .ok (some op)

/-- The register holds the operations of the set, in order, and their places are those of their mnemonics. -/
structure Represents (r : Register) (s : InstructionSet) : Prop where
  opcodes : r.opcodes.toList = s.opcodes
  places : ∀ name place, r.places[name]? = some place ↔ ∃ op : Opcode, r.opcodes[place]? = some op ∧ op.mnemonic = name

/-! ### Places -/

section Places
variable {r : Register} {s : InstructionSet} {op : Opcode}

theorem Represents.mem_places_iff (h : r.Represents s) : op.mnemonic ∈ r.places ↔ op ∈ s.opcodes := by
  rw [Indexes.mem_iff h.places, ← h.opcodes, Array.mem_toList_iff]
  constructor
  · rintro ⟨op', hop', hname⟩
    rwa [← Opcode.mnemonic_injective hname]
  · exact fun hop => ⟨op, hop, rfl⟩

/-- Registering an operation keeps the places in step with the list. -/
theorem Represents.insert (h : r.Represents s) (op : Opcode) : (r.insert op).Represents (s.insert op) := by
  by_cases hmem : op ∈ s.opcodes
  · rw [Register.insert, if_pos (h.mem_places_iff.mpr hmem), InstructionSet.insert, dif_pos hmem]
    exact h
  have hnew : op.mnemonic ∉ r.places := mt h.mem_places_iff.mp hmem
  rw [Register.insert, if_neg hnew, InstructionSet.insert, dif_neg hmem]
  constructor
  case opcodes => rw [Array.toList_push, h.opcodes]
  case places => exact Indexes.push h.places hnew

/-- Every place lies in the list, and what stands there is what the set finds. -/
theorem Represents.get?_eq (h : r.Represents s) (name : String) : r.get? name = .ok (s.get? name) := by
  have hget : s.get? name = r.opcodes.toList.find? (·.mnemonic == Text.upper name) := by rw [InstructionSet.get?, h.opcodes]
  unfold get?
  rcases Indexes.find?_cases h.places (Text.upper name) with ⟨place, op, hplace, hop, hfind⟩ | ⟨hplace, hfind⟩
  · simp only [hplace, hop, hget, hfind]
  · simp only [hplace, hget, hfind]

end Places

theorem represents_empty : Represents {} .empty := by
  constructor
  case opcodes => rfl
  case places => exact Indexes.empty

theorem represents_ofList (ops : List Opcode) : (ofList ops).Represents (InstructionSet.ofList ops) := by
  induction ops using List.reverseRecOn with
  | nil => exact represents_empty
  | append_singleton ops op ih =>
    rw [ofList, InstructionSet.ofList, List.foldl_concat, List.foldl_concat]
    exact ih.insert op

end Register

namespace InstructionSet

/-! ### Sequences of operations -/

section Sequences
variable {s : InstructionSet} {ops : List Opcode} {op op' : Opcode} {name : String} {hasParameter : Bool}

theorem ofList_concat : ofList (ops ++ [op]) = (ofList ops).insert op := by
  rw [ofList, List.foldl_concat]
  rfl

/-- Operations stand in the order in which they first occur. -/
theorem pairwise_idxOf_ofList (ops : List Opcode) :
    (ofList ops).opcodes.Pairwise fun a b => ops.idxOf a < ops.idxOf b := by
  induction ops using List.reverseRecOn with
  | nil => exact List.Pairwise.nil
  | append_singleton ops op ih =>
    have hidx {a : Opcode} (ha : a ∈ (ofList ops).opcodes) : (ops ++ [op]).idxOf a = ops.idxOf a :=
      List.idxOf_append_of_mem (mem_ofList.mp ha)
    have hbefore : (ofList ops).opcodes.Pairwise fun a b => (ops ++ [op]).idxOf a < (ops ++ [op]).idxOf b := by
      refine ih.imp_of_mem fun ha hb hlt => ?_
      rwa [hidx ha, hidx hb]
    rw [ofList_concat, insert]
    split
    · exact hbefore
    · next hnew =>
      rw [List.pairwise_append]
      refine ⟨hbefore, List.pairwise_singleton _ _, ?_⟩
      intro a ha b hb
      obtain rfl := List.mem_singleton.mp hb
      rw [hidx ha, List.idxOf_append_of_notMem (mt mem_ofList.mpr hnew)]
      exact Nat.lt_add_right _ (List.idxOf_lt_length_of_mem (mem_ofList.mp ha))

theorem count_ofList : (ofList ops).opcodes.count op = if op ∈ ops then 1 else 0 := by
  rw [(ofList ops).nodup.count]
  simp only [mem_ofList]

theorem size_ofList (ops : List Opcode) : (ofList ops).size = ops.toFinset.card := by
  rw [size, ← List.toFinset_card_of_nodup (ofList ops).nodup]
  refine congrArg _ (Finset.ext fun op => ?_)
  rw [List.mem_toFinset, List.mem_toFinset, mem_ofList]

theorem find_of_get?_eq_none (h : s.get? name = none) : s.find name hasParameter = .error (.notFound (Text.upper name)) := by
  rw [find, h]

theorem find_eq_ok_iff_of_get?_eq_some (h : s.get? name = some op) :
    s.find name hasParameter = .ok op' ↔ op' = op ∧ hasParameter = op.parameterKind.isRequired := by
  have hnames : s.Names name op' ↔ op' = op := by
    rw [Names, ← get?_eq_some_iff, h, Option.some_inj, eq_comm]
  rw [find_eq_ok_iff, hnames, eq_comm (a := hasParameter)]
  exact and_congr_right fun hop => by rw [hop]

end Sequences

/-- What registering a sequence of operations, with repeats and in any order, makes of it. -/
structure Registered (ops : List Opcode) (s : InstructionSet) : Prop where
  /-- Each operation of the sequence is held once, and no other is. -/
  listed : ∀ op, s.opcodes.count op = if op ∈ ops then 1 else 0
  ordered : s.opcodes.Pairwise fun a b => ops.idxOf a < ops.idxOf b
  counted : s.size = ops.toFinset.card
  found : ∀ name op, s.get? name = some op ↔ op ∈ ops ∧ Text.upper name = op.mnemonic
  /-- The register keeps the same list, and its look-ups find the same without leaving that list. -/
  stored : (Register.ofList ops).opcodes.toList = s.opcodes
  inside : ∀ name, (Register.ofList ops).get? name = .ok (s.get? name)
  notFound : ∀ name, s.get? name = none →
    ∀ hasParameter, s.find name hasParameter = .error (.notFound (Text.upper name))
  arity : ∀ name op, s.get? name = some op → ∀ hasParameter op', s.find name hasParameter = .ok op' ↔
    op' = op ∧ hasParameter = op.parameterKind.isRequired

/-- Whatever operations are registered, each is listed once, in order, and found under its mnemonic and no other. -/
theorem registered_ofList (ops : List Opcode) : Registered ops (ofList ops) := by
  constructor
  case listed => exact fun _ => count_ofList
  case ordered => exact pairwise_idxOf_ofList ops
  case counted => exact size_ofList ops
  case found =>
    intro name op
    rw [get?_eq_some_iff, mem_ofList, eq_comm (a := op.mnemonic)]
  case stored => exact (Register.represents_ofList ops).opcodes
  case inside => exact (Register.represents_ofList ops).get?_eq
  case notFound => exact fun _ h _ => find_of_get?_eq_none h
  case arity => exact fun _ _ h _ _ => find_eq_ok_iff_of_get?_eq_some h

end InstructionSet

end Mac1
