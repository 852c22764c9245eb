import Mac1.Proofs.Assembly.Acceptance
import Mac1.Proofs.Execution.Invariant
import Mac1.Proofs.Machine.Guarded
import Mac1.Proofs.Trace.Record

/-! Nothing can go wrong inside the machine. `Operation` lists what may be done to a machine from outside, up to
    running a program on it, and `Reachable` says that a machine comes about in this way. Every operation keeps the
    size of memory and the stack pointer inside it, so on a machine that can come about every operation does what
    it does under the guards of `Mac1.Machine.Guarded`, and no guard fails. -/

namespace Mac1

/-! ### Guarded runs -/

namespace Machine.Guarded

def instruction (p : Program) (index : Nat) : GuardedOp Instruction := fun m =>
  match p.instructions[index]? with
  | some i => .ok i m
  | none => .error .broken m

/-- The instruction at the program counter, which moves on and has to stay a word. -/
def fetch (p : Program) : GuardedOp Instruction := do
  let m ← get
  let i ← instruction p m.pc.toInt.toNat
  let pc ← word (m.pc.toInt + 1)
  modify fun m => { m with pc }
  return i

/-- What a step comes to, unless a guard was not met. -/
def settle? (index : Nat) (caption : String) (count : UInt64) (trace : Trace) :
    EStateM.Result Stop Machine Unit → Option (Execution.Progress × Execution)
  | .ok () m => some (Execution.settle index caption count trace (.ok () m))
  | .error (.outOfBounds address) m => some (Execution.settle index caption count trace (.error (.outOfBounds address) m))
  | .error .broken _ => none

/-- Runs the next instruction under the guards. There is no answer if one is not met. -/
def step? (p : Program) (e : Execution) : Option (Execution.Progress × Execution) :=
  if p.isOver e.machine then some (.over, e)
  else
    match fetch p e.machine with
    | .error _ _ => none
    | .ok i m =>
      let index := e.machine.pc.toInt.toNat
      let trace := e.trace.push (.caption i.caption)
      match i.effect with
      | .apply op x => settle? index i.caption e.count trace (apply op x m)
      | .store address value => settle? index i.caption e.count trace (storeInitial address value m)
      | .halt => some (.over, ⟨m.halt, e.count, trace⟩)

/-- Runs at most `limit` instructions under the guards. -/
def batch? (p : Program) (limit : Nat) (e : Execution) : Option (Except RuntimeError Bool × Execution) :=
  match limit with
  | 0 => some (.ok (p.isOver e.machine), e)
  | limit + 1 =>
    match step? p e with
    | none => none
    | some (.running, e) => batch? p limit e
    | some (.over, e) => some (.ok true, e)
    | some (.failed error, e) => some (.error error, e)

section Runs
variable {p : Program} {e : Execution} (hp : p.size < 2 ^ 63)

theorem settle?_eq {g : GuardedOp Unit} {f : MicroOp Unit} {m : Machine} (h : Refines g f m) (index : Nat)
    (caption : String) (count : UInt64) (trace : Trace) :
    settle? index caption count trace (g m) = some (Execution.settle index caption count trace (f m)) := by
  unfold Refines at h
  cases hf : f m with
  | ok _ m' =>
    rw [hf] at h
    rw [h]
    rfl
  | error fault m' =>
    rw [hf] at h
    cases fault with
    | outOfBounds address =>
      rw [h]
      rfl
    | noStackCell sp => exact h.elim

include hp

theorem fetch_eq {m : Machine} {index : Nat} {i : Instruction} (h : p.next? m = some (index, i)) :
    index = m.pc.toInt.toNat ∧ fetch p m = .ok i { m with pc := m.pc + 1 } := by
  obtain ⟨-, hindex, hi⟩ := Program.next?_eq_some_iff.mp h
  obtain ⟨hpc, hlt⟩ := Word.index?_eq_some_iff.mp hindex
  have hsame : index = m.pc.toInt.toNat := by omega
  have hword : word (m.pc.toInt + 1) m = .ok (m.pc + 1) m := by
    rw [word_of_fits (by omega) (by omega), Int64.ofInt_add, Int64.ofInt_toInt]
    rfl
  refine ⟨hsame, ?_⟩
  have hinstruction : instruction p m.pc.toInt.toNat m = .ok i m := by
    rw [instruction, ← hsame, hi]
  have hget : (get : GuardedOp Machine) m = .ok m m := rfl
  rw [fetch, bind_of_ok hget, bind_of_ok hinstruction, bind_of_ok hword]
  rfl

theorem step?_eq (h : e.machine.StackInside) (hsize : e.machine.memory.size < 2 ^ 60) :
    step? p e = some (e.step p) := by
  rw [step?, Execution.step, Program.isOver_eq_isNone_next?]
  cases hnext : p.next? e.machine with
  | none => rfl
  | some found =>
    obtain ⟨index, i⟩ := found
    -- the index of the next instruction is the program counter, so the guarded fetch finds the same one
    obtain ⟨rfl, hfetch⟩ := fetch_eq hp hnext
    have hinside : Machine.StackInside { e.machine with pc := e.machine.pc + 1 } := h
    simp only [Option.isNone_some, Bool.false_eq_true, if_false, hfetch]
    cases i.effect with
    | apply op x => exact settle?_eq (refines_apply hinside hsize op x) _ _ _ _
    | store address value => exact settle?_eq (refines_storeInitial hinside address value) _ _ _ _
    | halt => rfl

/-- A batch does the same under the guards, and none of them fails. -/
theorem batch?_eq (h : e.machine.StackInside) (hsize : e.machine.memory.size < 2 ^ 60) (limit : Nat) :
    batch? p limit e = some (e.batch p limit) := by
  induction limit generalizing e with
  | zero => rfl
  | succ limit ih =>
    have hkept := Execution.kept_step (p := p) h hsize
    rw [batch?, step?_eq hp h hsize, Execution.batch]
    cases hstep : e.step p with
    | mk progress e' =>
      rw [hstep] at hkept
      cases progress with
      | running => exact ih hkept.inside (hkept.size ▸ hsize)
      | «over» => rfl
      | failed error => rfl

end Runs

end Machine.Guarded

/-! ### Machines that can come about -/

namespace Machine

/-- What may be done to a machine from outside: single operations, changes of its parts, and runs of programs. -/
inductive Operation where
  | apply (op : Opcode) (x : Word)
  | storeInitial (address : Nat) (value : Word)
  | moveSp (w : Word)
  | setCell (index : Nat) (value : Word)
  | setAc (w : Word)
  | setPc (w : Word)
  | halt
  | clearLog
  | batch (p : Program) (limit : Nat) (count : UInt64) (trace : Trace)

namespace Operation

/-- A cell that is set from outside has to exist, and a word has to be able to count the instructions of a program. -/
def Allowed (m : Machine) : Operation → Prop
  | .setCell index _ => index < m.memory.size
  | .batch p _ _ _ => p.size < 2 ^ 63
  | _ => True

/-- The machine after the operation, whether it succeeds or fails. -/
def perform (m : Machine) : Operation → Machine
  | .apply op x => after (m.apply op x)
  | .storeInitial address value => after (m.storeInitial address value)
  | .moveSp w => m.moveSp w
  | .setCell index value => { m with memory := m.memory.set index value }
  | .setAc w => { m with ac := w }
  | .setPc w => { m with pc := w }
  | .halt => m.halt
  | .clearLog => m.clearLog
  | .batch p limit count trace => (Execution.batch p limit ⟨m, count, trace⟩).2.machine

/-- The machine after a guarded operation, unless a guard was not met. -/
def unbroken? {α : Type} : EStateM.Result Guarded.Stop Machine α → Option Machine
  | .ok _ m => some m
  | .error (.outOfBounds _) m => some m
  | .error .broken _ => none

/-- The machine after the operation under the guards, unless one is not met. -/
def performGuarded? (m : Machine) : Operation → Option Machine
  | .apply op x => unbroken? (Guarded.apply op x m)
  | .storeInitial address value => unbroken? (Guarded.storeInitial address value m)
  | .moveSp w => unbroken? (Guarded.moveSp w m)
  | .setCell index value => unbroken? (Guarded.setCell index value m)
  | .setAc w => some { m with ac := w }
  | .setPc w => some { m with pc := w }
  | .halt => some m.halt
  | .clearLog => some m.clearLog
  | .batch p limit count trace => (Guarded.batch? p limit ⟨m, count, trace⟩).map (·.2.machine)

section Steps
variable {m : Machine} (h : m.StackInside) (hsize : m.memory.size < 2 ^ 60)

theorem unbroken?_eq {α : Type} {g : Guarded.GuardedOp α} {f : MicroOp α} (hr : Guarded.Refines g f m) :
    unbroken? (g m) = some (after (f m)) := by
  unfold Guarded.Refines at hr
  cases hf : f m with
  | ok _ m' =>
    rw [hf] at hr
    rw [hr]
    rfl
  | error fault m' =>
    rw [hf] at hr
    cases fault with
    | outOfBounds address =>
      rw [hr]
      rfl
    | noStackCell sp => exact hr.elim

include h hsize

theorem performGuarded?_eq (op : Operation) (ha : op.Allowed m) : op.performGuarded? m = some (op.perform m) := by
  cases op with
  | apply op x => exact unbroken?_eq (Guarded.refines_apply h hsize op x)
  | storeInitial address value => exact unbroken?_eq (Guarded.refines_storeInitial h address value)
  | moveSp w => rw [performGuarded?, Guarded.moveSp_eq h hsize w, unbroken?, perform]
  | setCell index value =>
    have hset : Guarded.setCell index value m = .ok () { m with memory := m.memory.set index value } := if_pos ha
    rw [performGuarded?, hset, unbroken?, perform]
  | batch p limit count trace =>
    have hbatch := Guarded.batch?_eq (e := ⟨m, count, trace⟩) ha h hsize limit
    rw [performGuarded?, hbatch, Option.map_some, perform]
  | _ => rfl

theorem kept_perform (op : Operation) : m.Kept (op.perform m) := by
  have hpos : 0 < m.memory.size := Nat.lt_of_le_of_lt (Nat.zero_le _) h
  cases op with
  | apply op x => exact kept_after (runs_apply h hsize op x)
  | storeInitial address value => exact kept_after (runs_storeInitial h address value)
  | moveSp w => exact ⟨rfl, stackInside_moveSp hpos w⟩
  | setCell index value =>
    have hsame := Memory.size_set m.memory index value
    exact ⟨hsame, Nat.lt_of_lt_of_eq h hsame.symm⟩
  | batch p limit count trace => exact Execution.kept_batch (e := ⟨m, count, trace⟩) h hsize limit
  | _ => exact ⟨rfl, h⟩

end Steps

end Operation

/-- The machine can come about from a new one by operations that are allowed. -/
inductive Reachable (settings : Settings) : Machine → Prop where
  | new : Reachable settings (.new settings)
  | step {m : Machine} (op : Operation) (h : Reachable settings m) (ha : op.Allowed m) :
    Reachable settings (op.perform m)

theorem size_new (settings : Settings) : (new settings).memory.size = max 1 settings.memorySize := by
  simp [new, SpecialAddress.all]

theorem Reachable.kept {settings : Settings} {m : Machine} (h : Reachable settings m)
    (hsettings : settings.memorySize < 2 ^ 60) : (Machine.new settings).Kept m := by
  have hsize := size_new settings
  induction h with
  | new =>
    refine ⟨rfl, ?_⟩
    have hsp : (Machine.new settings).sp = 0 := rfl
    rw [StackInside, hsp]
    omega
  | step op _ _ ih =>
    have := ih.size
    exact ih.trans (Operation.kept_perform ih.inside (by omega) op)

end Machine

/-- Each line gives one instruction at most. -/
theorem Emitted.size_le {target : Target} {lines : List SourceLine} {p : Program} (h : Emitted target lines p) :
    p.size ≤ lines.length := by
  have hsplit := List.length_eq_countP_add_countP SourceLine.hasCommand (l := lines)
  have hle : SymbolTable.initialCount lines ≤ lines.countP fun l => ¬l.hasCommand = true := by
    refine List.countP_mono_left fun l _ hl => ?_
    obtain ⟨number, text, statement⟩ := l
    cases statement <;> simp_all [SourceLine.alias?, SourceLine.hasCommand]
  have := h.size_eq
  omega

/-- On every machine that can come about from a new one, memory has the size that it was made with, the stack pointer
    stands inside it, and no operation comes to a guard that it does not meet. A program that is assembled has no
    more instructions than lines. -/
theorem Machine.reachable_safe (settings : Settings) (hsettings : settings.memorySize < 2 ^ 60) :
    (∀ m, Reachable settings m → m.memory.size = max 1 settings.memorySize ∧ m.StackInside ∧
      ∀ op : Operation, op.Allowed m → op.performGuarded? m = some (op.perform m)) ∧
    ∀ (target : Target) (texts : List String) (p : Program), target.assemble texts = .ok p →
      p.size ≤ texts.length := by
  refine ⟨fun m hm => ?_, fun target texts p hp => ?_⟩
  · have hkept := hm.kept hsettings
    have hsize := hkept.size.trans (size_new settings)
    exact ⟨hsize, hkept.inside, fun op ha => op.performGuarded?_eq hkept.inside (by omega) ha⟩
  · obtain ⟨lines, hreads, -, hemitted⟩ := Target.assemble_eq_ok_iff.mp hp
    have hlength : lines.length = texts.length := by rw [← hreads.texts, List.length_map]
    exact hlength ▸ hemitted.size_le

/-- The least word is swapped into the stack pointer of a machine with three cells, and a call follows. -/
theorem Machine.reachable_safe_swap : ∃ m, Reachable { memorySize := 3 } m ∧ m.ac = 0 ∧ m.sp = 1 ∧ m.memory.size = 3 ∧
    (Operation.apply .call 7).performGuarded? m = some ((Operation.apply .call 7).perform m) := by
  have hreachable : Reachable { memorySize := 3 } _ :=
    .step (.apply .swap 0) (.step (.setAc Int64.minValue) .new trivial) trivial
  have hsafe := (Machine.reachable_safe { memorySize := 3 } (by decide)).1 _ hreachable
  exact ⟨_, hreachable, by decide, by decide, hsafe.1, hsafe.2.2 (.apply .call 7) trivial⟩

end Mac1
