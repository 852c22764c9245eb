import Mathlib.Algebra.Group.Nat.Defs
import Mac1.Machine.Apply
import Mac1.Proofs.Trace.Reading

/-! Replaying the log of an operation. The entries are made again on a copy of the registers and the memory, one
    after the other; `Follows` says that the copy ends where the machine does. Each micro-operation keeps
    this, whether it fails or not, and so does each operation. -/

namespace Mac1

theorem foldlM_append_of_eq_some {σ α : Type} {f : σ → α → Option σ} {s s' : σ} {first second : List α}
    (h : first.foldlM f s = some s') : (first ++ second).foldlM f s = second.foldlM f s' := by
  rw [List.foldlM_append, h]
  rfl

theorem foldlM_singleton {σ α : Type} {f : σ → α → Option σ} {s : σ} {a : α} : [a].foldlM f s = f s a := by
  rw [List.foldlM_cons]
  cases f s a <;> rfl

/-- The registers and the memory of a machine, which is what a log is about. -/
structure Snapshot where
  ac : Word
  pc : Word
  sp : Nat
  memory : Memory
  deriving DecidableEq, Repr

/-- The registers and the memory of the machine. -/
def Machine.snapshot (m : Machine) : Snapshot := ⟨m.ac, m.pc, m.sp, m.memory⟩

namespace Snapshot

/-- The address of an operand. It is an integer and does not wrap around. -/
def operandAddress (s : Snapshot) : Operand → Int
  | .cell address => address.toInt
  | .stack offset => s.sp + offset.toInt

/-- The cell of an operand holds a value. -/
def Holds (s : Snapshot) (operand : Operand) (value : Word) : Prop :=
  0 ≤ s.operandAddress operand ∧ s.memory.get? (s.operandAddress operand).toNat = some value

instance (s : Snapshot) (operand : Operand) (value : Word) : Decidable (s.Holds operand value) :=
  inferInstanceAs (Decidable (_ ∧ _))

/-- Makes the assignment of an entry. The operand of a sum or difference is not assigned, but has to have the value
    that the entry tells. -/
def perform (s : Snapshot) : Mutation → Option Snapshot
  | .ac value => some { s with ac := value }
  | .pc value => some { s with pc := value }
  | .sp offset => some { s with sp := (offset % (s.memory.size : Int)).toNat }
  | .cell address value =>
    if address < s.memory.size then some { s with memory := s.memory.set address value } else none
  | .adding operand value => if s.Holds operand value then some s else none
  | .subtracting operand value => if s.Holds operand value then some s else none

/-- Makes the assignments of a log. -/
def replay (s : Snapshot) (entries : List Mutation) : Option Snapshot := entries.foldlM perform s

/-- Makes the assignments of a log that is given as a text. -/
def replayLines (s : Snapshot) (lines : List String) : Option Snapshot :=
  lines.foldlM (fun s line => (Mutation.read line).bind s.perform) s

/-- The offset from the top of memory by which an address is logged stands for the address. -/
theorem perform_sp (s : Snapshot) {sp : Nat} (h : sp < s.memory.size) :
    s.perform (.sp (if sp = 0 then 0 else (sp : Int) - s.memory.size)) = some { s with sp } := by
  have hsp : ((if sp = 0 then 0 else (sp : Int) - s.memory.size) % (s.memory.size : Int)).toNat = sp := by
    split
    · next hzero => simp [hzero]
    · rw [Int.sub_emod_right, Int.emod_eq_of_lt (Int.natCast_nonneg _) (by omega), Int.toNat_natCast]
  rw [perform, hsp]

theorem replay_append {s s' : Snapshot} {first second : List Mutation} (h : s.replay first = some s') :
    s.replay (first ++ second) = s'.replay second := foldlM_append_of_eq_some h

theorem replay_singleton {s : Snapshot} {entry : Mutation} : s.replay [entry] = s.perform entry := foldlM_singleton

theorem replayLines_render (s : Snapshot) (entries : List Mutation) :
    s.replayLines (entries.map Mutation.render) = s.replay entries := by
  rw [replayLines, replay, List.foldlM_map]
  simp only [Mutation.read_render, Option.bind_some]

end Snapshot

namespace Machine

/-- The second machine comes from the first: its log goes on with entries that replay what changed. -/
structure Follows (m m' : Machine) : Prop where
  log : ∃ entries, m'.log = m.log ++ entries ∧ m.snapshot.replay entries.toList = some m'.snapshot
  size : m'.memory.size = m.memory.size
  inside : m'.StackInside

theorem Follows.refl {m : Machine} (h : m.StackInside) : Follows m m :=
  ⟨⟨#[], by simp, rfl⟩, rfl, h⟩

theorem Follows.trans {m m' m'' : Machine} (h : Follows m m') (h' : Follows m' m'') : Follows m m'' := by
  obtain ⟨entries, hlog, hreplay⟩ := h.log
  obtain ⟨entries', hlog', hreplay'⟩ := h'.log
  refine ⟨⟨entries ++ entries', ?_, ?_⟩, h'.size.trans h.size, h'.inside⟩
  · rw [hlog', hlog, Array.append_assoc]
  · rw [Array.toList_append, Snapshot.replay_append hreplay, hreplay']

/-- One entry is logged, and replaying it is all that changes. -/
theorem Follows.of_entry {m m' : Machine} {entry : Mutation} (hlog : m'.log = m.log.push entry)
    (hreplay : m.snapshot.perform entry = some m'.snapshot) (hsize : m'.memory.size = m.memory.size)
    (hinside : m'.StackInside) : Follows m m' :=
  ⟨⟨#[entry], hlog, Snapshot.replay_singleton.trans hreplay⟩, hsize, hinside⟩

end Machine

/-! ### Micro-operations -/

namespace Machine.MicroOp
variable {α β : Type} {m : Machine} {f : MicroOp α} {g : α → MicroOp β} {Q : α → Machine → Prop}
  {R : β → Machine → Prop}

/-- The micro-operation logs what it changes, also if it fails. An answer comes with a machine that has `Q`. -/
def Runs (f : MicroOp α) (m : Machine) (Q : α → Machine → Prop) : Prop :=
  match f m with
  | .ok a m' => Follows m m' ∧ Q a m'
  | .error _ m' => Follows m m'

theorem bind_of_ok {a : α} {m' : Machine} (h : f m = .ok a m') : (f >>= g) m = g a m' := by
  change EStateM.bind f g m = _
  rw [EStateM.bind, h]

theorem bind_of_error {fault : Fault} {m' : Machine} (h : f m = .error fault m') : (f >>= g) m = .error fault m' := by
  change EStateM.bind f g m = _
  rw [EStateM.bind, h]

theorem Runs.bind (h : Runs f m Q) (hg : ∀ a m', Follows m m' → Q a m' → Runs (g a) m' R) : Runs (f >>= g) m R := by
  unfold Runs at h ⊢
  cases hf : f m with
  | error fault m' =>
    rw [hf] at h
    rw [bind_of_error hf]
    exact h
  | ok a m' =>
    rw [hf] at h
    rw [bind_of_ok hf]
    have hrest := hg a m' h.1 h.2
    unfold Runs at hrest
    cases hga : g a m' with
    | error fault m'' =>
      rw [hga] at hrest
      exact h.1.trans hrest
    | ok b m'' =>
      rw [hga] at hrest
      exact ⟨h.1.trans hrest.1, hrest.2⟩

theorem runs_getAc_bind {g : Word → MicroOp β} (h : Runs (g m.ac) m R) : Runs (getAc >>= g) m R := h

theorem runs_getPc_bind {g : Word → MicroOp β} (h : Runs (g m.pc) m R) : Runs (getPc >>= g) m R := h

theorem runs_getSp_bind {g : Word → MicroOp β} (h : Runs (g (Int64.ofNat m.sp)) m R) : Runs (getSp >>= g) m R := h

section Inside
variable (h : m.StackInside)
include h

theorem runs_note {entry : Mutation} (hentry : m.snapshot.perform entry = some m.snapshot) :
    Runs (note entry) m fun _ _ => True :=
  ⟨.of_entry rfl hentry rfl h, trivial⟩

theorem runs_setAc (value : Word) : Runs (setAc value) m fun _ _ => True :=
  ⟨.of_entry rfl rfl rfl h, trivial⟩

theorem runs_setPc (value : Word) : Runs (setPc value) m fun _ _ => True :=
  ⟨.of_entry rfl rfl rfl h, trivial⟩

theorem runs_jumpIf (condition : Bool) (target : Word) : Runs (jumpIf condition target) m fun _ _ => True := by
  cases condition with
  | true => exact runs_setPc h target
  | false => exact ⟨.refl h, trivial⟩

theorem runs_setSp (value : Word) : Runs (setSp value) m fun _ _ => True := by
  have hinside := stackInside_moveSp (Nat.lt_of_le_of_lt (Nat.zero_le _) h) value
  exact ⟨.of_entry rfl (Snapshot.perform_sp m.snapshot hinside) rfl hinside, trivial⟩

theorem runs_store {index : Nat} (hindex : index < m.memory.size) (value : Word) :
    Runs (store index value) m fun _ _ => True := by
  have hsize := Memory.size_set m.memory index value
  refine ⟨.of_entry rfl (if_pos hindex) hsize ?_, trivial⟩
  rw [StackInside]
  exact Nat.lt_of_lt_of_eq h hsize.symm

theorem runs_check (address : Word) : Runs (check address) m fun index m' => m' = m ∧ index < m.memory.size := by
  unfold Runs check Memory.check
  cases hindex : Word.index? m.memory.size address with
  | none => exact .refl h
  | some index => exact ⟨.refl h, rfl, (Word.index?_eq_some_iff.mp hindex).2⟩

theorem runs_read (address : Word) : Runs (read address) m fun value m' => m' = m ∧
    ∃ index, Word.index? m.memory.size address = some index ∧ m.memory.get? index = some value := by
  unfold Runs read Memory.read
  cases hindex : Word.index? m.memory.size address with
  | none => exact .refl h
  | some index =>
    have hlt : index < m.memory.cells.size := (Word.index?_eq_some_iff.mp hindex).2
    refine ⟨.refl h, rfl, index, rfl, ?_⟩
    simp [Memory.get?, hlt]

theorem runs_top : Runs top m fun _ m' => m' = m := by
  unfold Runs top
  cases m.memory.get? m.sp with
  | none => exact .refl h
  | some value => exact ⟨.refl h, rfl⟩

theorem runs_setTop (value : Word) : Runs (setTop value) m fun _ _ => True := by
  have hlt : m.sp < m.memory.size := h
  have hset : setTop value m = store m.sp value m := if_pos hlt
  unfold Runs
  rw [hset]
  exact runs_store h hlt value

theorem runs_push (value : Word) : Runs (push value) m fun _ _ => True := by
  refine runs_getSp_bind ((runs_setSp h _).bind fun _ m' hm' _ => ?_)
  exact runs_setTop hm'.inside value

theorem runs_pop : Runs pop m fun _ _ => True := by
  refine (runs_top h).bind fun value m' hm' _ => ?_
  refine runs_getSp_bind ((runs_setSp hm'.inside _).bind fun _ m'' hm'' _ => ?_)
  exact ⟨.refl hm''.inside, trivial⟩

end Inside

end Machine.MicroOp

/-! ### Operations -/

/-- The address of a cell that is found from the stack pointer did not wrap around, since memory ends long before
    the largest word. -/
theorem Word.add_toInt_of_index? {n limit index : Nat} {x : Word} (hn : n < limit) (hlimit : limit < 2 ^ 60)
    (h : Word.index? limit (Int64.ofNat n + x) = some index) : (n : Int) + x.toInt = index := by
  obtain ⟨hindex, hlt⟩ := Word.index?_eq_some_iff.mp h
  have hsp : (Int64.ofNat n).toInt = n := Int64.toInt_ofNat_of_lt (by omega)
  rw [Int64.toInt_add, hsp, Int.bmod_def] at hindex
  have := x.le_toInt
  have := x.toInt_lt
  split at hindex <;> omega

namespace Machine
open MicroOp

variable {m : Machine}

theorem holds_cell {address value : Word} {index : Nat} (hindex : Word.index? m.memory.size address = some index)
    (hvalue : m.memory.get? index = some value) : m.snapshot.Holds (.cell address) value := by
  have haddress : address.toInt = index := (Word.index?_eq_some_iff.mp hindex).1
  rw [Snapshot.Holds, Snapshot.operandAddress, haddress, Int.toNat_natCast]
  exact ⟨Int.natCast_nonneg _, hvalue⟩

theorem holds_stack {offset value : Word} {index : Nat} (h : m.StackInside) (hsize : m.memory.size < 2 ^ 60)
    (hindex : Word.index? m.memory.size (Int64.ofNat m.sp + offset) = some index)
    (hvalue : m.memory.get? index = some value) : m.snapshot.Holds (.stack offset) value := by
  have haddress : (m.sp : Int) + offset.toInt = index := Word.add_toInt_of_index? h hsize hindex
  rw [Snapshot.Holds, Snapshot.operandAddress, snapshot, haddress, Int.toNat_natCast]
  exact ⟨Int.natCast_nonneg _, hvalue⟩

/-- A sum or difference notes its operand, whose value is that of the cell, and then sets the accumulator. -/
theorem runs_combine {address : Word} {operand : Operand} (h : m.StackInside)
    (hoperand : ∀ index value, Word.index? m.memory.size address = some index → m.memory.get? index = some value →
      m.snapshot.Holds operand value)
    {entry : Operand → Word → Mutation} (hentry : entry = .adding ∨ entry = .subtracting) (g : Word → Word → Word) :
    Runs (do
      let value ← read address
      note (entry operand value)
      setAc (g (← getAc) value)) m fun _ _ => True := by
  refine (runs_read h address).bind fun value m' _ ⟨hm', index, hindex, hvalue⟩ => ?_
  subst hm'
  have hholds := hoperand index value hindex hvalue
  have hperform : m'.snapshot.perform (entry operand value) = some m'.snapshot := by
    rcases hentry with rfl | rfl <;> exact if_pos hholds
  refine (runs_note h hperform).bind fun _ m'' hm'' _ => ?_
  exact runs_getAc_bind (runs_setAc hm''.inside _)

theorem runs_apply (h : m.StackInside) (hsize : m.memory.size < 2 ^ 60) (op : Opcode) (x : Word) :
    Runs (apply op x) m fun _ _ => True := by
  have load (address : Word) : Runs (read address >>= setAc) m fun _ _ => True := by
    refine (runs_read h address).bind fun value m' hm' _ => ?_
    exact runs_setAc hm'.inside value
  have save (address : Word) : Runs (check address >>= fun index => getAc >>= store index) m fun _ _ => True := by
    refine (runs_check h address).bind fun index m' hm' ⟨hsame, hindex⟩ => ?_
    exact runs_getAc_bind (runs_store hm'.inside (hsame ▸ hindex) _)
  cases op with
  | loco => exact runs_setAc h x
  | lodd => exact load x
  | stod => exact save x
  | addd => exact runs_combine h (fun _ _ => holds_cell) (.inl rfl) (· + ·)
  | subd => exact runs_combine h (fun _ _ => holds_cell) (.inr rfl) (· - ·)
  | lodl => exact runs_getSp_bind (load _)
  | stol => exact runs_getSp_bind (save _)
  | addl => exact runs_getSp_bind (runs_combine h (fun _ _ => holds_stack h hsize) (.inl rfl) (· + ·))
  | subl => exact runs_getSp_bind (runs_combine h (fun _ _ => holds_stack h hsize) (.inr rfl) (· - ·))
  | push => exact runs_getAc_bind (runs_push h _)
  | pop => exact (runs_pop h).bind fun value m' hm' _ => runs_setAc hm'.inside value
  | pshi =>
    refine runs_getAc_bind ((runs_read h _).bind fun value m' hm' _ => ?_)
    exact runs_push hm'.inside value
  | popi =>
    refine runs_getAc_bind ((runs_check h _).bind fun index m' hm' ⟨hsame, hindex⟩ => ?_)
    refine (runs_pop hm'.inside).bind fun value m'' hm'' _ => ?_
    exact runs_store hm''.inside (by rw [hm''.size, hsame]; exact hindex) value
  | jpos => exact runs_getAc_bind (runs_jumpIf h _ x)
  | jzer => exact runs_getAc_bind (runs_jumpIf h _ x)
  | jneg => exact runs_getAc_bind (runs_jumpIf h _ x)
  | jnze => exact runs_getAc_bind (runs_jumpIf h _ x)
  | jump => exact runs_jumpIf h true x
  | call =>
    refine runs_getPc_bind ((runs_push h _).bind fun _ m' hm' _ => ?_)
    exact runs_setPc hm'.inside x
  | retn => exact (runs_pop h).bind fun value m' hm' _ => runs_setPc hm'.inside value
  | swap =>
    refine runs_getAc_bind (runs_getSp_bind ((runs_setAc h _).bind fun _ m' hm' _ => ?_))
    exact runs_setSp hm'.inside _
  | insp => exact runs_getSp_bind (runs_setSp h _)
  | desp => exact runs_getSp_bind (runs_setSp h _)

theorem runs_storeInitial (h : m.StackInside) (address : Nat) (value : Word) :
    Runs (storeInitial address value) m fun _ _ => True := by
  refine (runs_check h _).bind fun index m' hm' ⟨hsame, hindex⟩ => ?_
  exact runs_store hm'.inside (hsame ▸ hindex) value

end Machine

end Mac1
