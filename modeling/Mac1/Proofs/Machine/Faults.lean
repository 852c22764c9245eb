import Mac1.Proofs.Trace.Replay

/-! Which operations fail. Ten of them use an address that need not be that of a cell, and find that out before they
    change anything; the others always succeed. -/

namespace Mac1.Machine
open MicroOp

/-- The address that an operation checks, if it checks one. -/
def checked? (m : Machine) (op : Opcode) (x : Word) : Option Word :=
  match op with
  | .lodd | .stod | .addd | .subd => some x
  | .lodl | .stol | .addl | .subl => some (Int64.ofNat m.sp + x)
  | .pshi | .popi => some m.ac
  | _ => none

namespace MicroOp
variable {α β : Type} {m : Machine} {f : MicroOp α} {g : α → MicroOp β} {Q : α → Machine → Prop}

/-- The micro-operation succeeds. -/
def Succeeds (f : MicroOp α) (m : Machine) : Prop := ∃ a m', f m = .ok a m'

/-- The micro-operation succeeds if the address is that of a cell, and else fails without a change. -/
def Checks (f : MicroOp α) (m : Machine) (address : Word) : Prop :=
  (Word.Inside m.memory.size address → Succeeds f m) ∧
    (¬Word.Inside m.memory.size address → f m = .error (.outOfBounds address) m)

theorem Succeeds.bind (h : Succeeds f m) (hf : Runs f m Q)
    (hg : ∀ a m', Follows m m' → Q a m' → Succeeds (g a) m') : Succeeds (f >>= g) m := by
  obtain ⟨a, m', hfm⟩ := h
  unfold Runs at hf
  rw [hfm] at hf
  obtain ⟨b, m'', hgm⟩ := hg a m' hf.1 hf.2
  exact ⟨b, m'', (bind_of_ok hfm).trans hgm⟩

theorem succeeds_getAc_bind {g : Word → MicroOp β} (h : Succeeds (g m.ac) m) : Succeeds (getAc >>= g) m := h

theorem succeeds_getPc_bind {g : Word → MicroOp β} (h : Succeeds (g m.pc) m) : Succeeds (getPc >>= g) m := h

theorem succeeds_getSp_bind {g : Word → MicroOp β} (h : Succeeds (g (Int64.ofNat m.sp)) m) :
    Succeeds (getSp >>= g) m := h

theorem checks_getAc_bind {g : Word → MicroOp β} {address : Word} (h : Checks (g m.ac) m address) :
    Checks (getAc >>= g) m address := h

theorem checks_getSp_bind {g : Word → MicroOp β} {address : Word} (h : Checks (g (Int64.ofNat m.sp)) m address) :
    Checks (getSp >>= g) m address := h

theorem Checks.bind {address : Word} (h : Checks f m address) (hf : Runs f m Q)
    (hg : ∀ a m', Follows m m' → Q a m' → Succeeds (g a) m') : Checks (f >>= g) m address :=
  ⟨fun hinside => (h.1 hinside).bind hf hg, fun hinside => bind_of_error (h.2 hinside)⟩

theorem checks_read (address : Word) : Checks (read address) m address := by
  rw [Checks, ← Word.exists_index?_iff]
  unfold Succeeds read Memory.read
  cases Word.index? m.memory.size address <;> simp

theorem checks_check (address : Word) : Checks (check address) m address := by
  rw [Checks, ← Word.exists_index?_iff]
  unfold Succeeds check Memory.check
  cases Word.index? m.memory.size address <;> simp

theorem succeeds_jumpIf (condition : Bool) (target : Word) : Succeeds (jumpIf condition target) m := by
  cases condition <;> exact ⟨_, _, rfl⟩

section Inside
variable (h : m.StackInside)
include h

theorem succeeds_push (value : Word) : Succeeds (push value) m := by
  have hset (w : Word) : Succeeds (setSp w) m := ⟨_, _, rfl⟩
  refine succeeds_getSp_bind ((hset _).bind (runs_setSp h _) fun _ m' hm' _ => ?_)
  exact ⟨(), _, if_pos hm'.inside⟩

theorem succeeds_pop : Succeeds pop m := by
  have hlt : m.sp < m.memory.cells.size := h
  have htop : top m = .ok m.memory.cells[m.sp] m := by simp [top, Memory.get?, hlt]
  exact ⟨_, _, bind_of_ok htop⟩

end Inside

end MicroOp

/-- What an operation does that checks an address, or that does not. -/
theorem checks_apply {m : Machine} (h : m.StackInside) (op : Opcode) (x : Word) :
    match m.checked? op x with
    | some address => Checks (apply op x) m address
    | none => Succeeds (apply op x) m := by
  have load (address : Word) : Checks (read address >>= setAc) m address :=
    (checks_read address).bind (runs_read h address) fun value m' _ _ => ⟨_, _, rfl⟩
  have save (address : Word) : Checks (check address >>= fun index => getAc >>= store index) m address :=
    (checks_check address).bind (runs_check h address) fun index m' _ _ => ⟨_, _, rfl⟩
  have combine (address : Word) (entry : Word → Mutation) (sum : Word → Word → Word) :
      Checks (read address >>= fun value => note (entry value) >>= fun _ => getAc >>= fun ac => setAc (sum ac value))
        m address :=
    (checks_read address).bind (runs_read h address) fun value m' _ _ => ⟨_, _, rfl⟩
  have jump (condition : Bool) : Succeeds (jumpIf condition x) m := succeeds_jumpIf condition x
  cases op with
  | loco => exact ⟨_, _, rfl⟩
  | lodd => exact load x
  | stod => exact save x
  | addd => exact combine x _ (· + ·)
  | subd => exact combine x _ (· - ·)
  | lodl => exact checks_getSp_bind (load _)
  | stol => exact checks_getSp_bind (save _)
  | addl => exact checks_getSp_bind (combine _ _ (· + ·))
  | subl => exact checks_getSp_bind (combine _ _ (· - ·))
  | push => exact succeeds_getAc_bind (succeeds_push h m.ac)
  | pop => exact (succeeds_pop h).bind (runs_pop h) fun value m' _ _ => ⟨_, _, rfl⟩
  | pshi =>
    refine checks_getAc_bind ((checks_read m.ac).bind (runs_read h m.ac) fun value m' hm' _ => ?_)
    exact succeeds_push hm'.inside value
  | popi =>
    refine checks_getAc_bind ((checks_check m.ac).bind (runs_check h m.ac) fun index m' hm' _ => ?_)
    exact (succeeds_pop hm'.inside).bind (runs_pop hm'.inside) fun value m'' _ _ => ⟨_, _, rfl⟩
  | jpos => exact succeeds_getAc_bind (jump _)
  | jzer => exact succeeds_getAc_bind (jump _)
  | jneg => exact succeeds_getAc_bind (jump _)
  | jnze => exact succeeds_getAc_bind (jump _)
  | jump => exact jump true
  | call => exact succeeds_getPc_bind ((succeeds_push h m.pc).bind (runs_push h m.pc) fun _ m' _ _ => ⟨_, _, rfl⟩)
  | retn => exact (succeeds_pop h).bind (runs_pop h) fun value m' _ _ => ⟨_, _, rfl⟩
  | swap => exact ⟨_, _, rfl⟩
  | insp => exact ⟨_, _, rfl⟩
  | desp => exact ⟨_, _, rfl⟩

/-- An operation fails exactly if the address that it checks is not that of a cell, and then changes nothing. -/
theorem apply_eq_error_iff {m m' : Machine} (h : m.StackInside) {op : Opcode} {x : Word} {fault : Fault} :
    m.apply op x = .error fault m' ↔ ∃ address, m.checked? op x = some address ∧
      ¬Word.Inside m.memory.size address ∧ fault = .outOfBounds address ∧ m' = m := by
  have hchecks := checks_apply h op x
  cases hchecked : m.checked? op x with
  | none =>
    rw [hchecked] at hchecks
    obtain ⟨a, m'', hok⟩ := hchecks
    simp [hok]
  | some address =>
    rw [hchecked] at hchecks
    by_cases hinside : Word.Inside m.memory.size address
    · obtain ⟨a, m'', hok⟩ := hchecks.1 hinside
      simp [hok, hinside]
    · simp [hchecks.2 hinside, hinside, eq_comm]

end Mac1.Machine
