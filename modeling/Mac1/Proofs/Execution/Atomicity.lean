import Mac1.Proofs.Execution.Accounting
import Mac1.Proofs.Execution.Faults

/-! Faults change nothing and end the run. An operation that fails has not touched the machine, not even its log, so
    what a batch that fails leaves is the machine just before the instruction that failed, moved on by one and
    halted. On such a machine the run of every program is over. -/

namespace Mac1

/-! ### Operations that fail -/

/-- Nothing changes, and the address that is reported is not that of a cell. -/
structure Machine.Untouched (m m' : Machine) (fault : Fault) : Prop where
  same : m' = m
  outside : ∃ address, fault = .outOfBounds address ∧ ¬Word.Inside m.memory.size address

section Operations
variable {m m' : Machine} {fault : Fault}

theorem Machine.untouched_of_apply (h : m.StackInside) {op : Opcode} {x : Word}
    (hfault : m.apply op x = .error fault m') : m.Untouched m' fault := by
  obtain ⟨address, -, houtside, hreported, hsame⟩ := (apply_eq_error_iff h).mp hfault
  exact ⟨hsame, address, hreported, houtside⟩

theorem Machine.untouched_of_storeInitial {address : Nat} {value : Word}
    (hfault : m.storeInitial address value = .error fault m') : m.Untouched m' fault := by
  have hchecks := MicroOp.checks_check (m := m) (Int64.ofNat address)
  by_cases hinside : Word.Inside m.memory.size (Int64.ofNat address)
  · obtain ⟨index, m'', hcheck⟩ := hchecks.1 hinside
    have hstored := (MicroOp.bind_of_ok hcheck).symm.trans hfault
    cases hstored
  · have hfailed := (MicroOp.bind_of_error (hchecks.2 hinside)).symm.trans hfault
    cases hfailed
    exact ⟨rfl, _, rfl, hinside⟩

theorem Effect.untouched_of_operation? (h : m.StackInside) {effect : Effect} {f : Machine.MicroOp Unit}
    (heffect : effect.operation? = some f) (hfault : f m = .error fault m') : m.Untouched m' fault := by
  cases effect with
  | apply op x =>
    cases heffect
    exact Machine.untouched_of_apply h hfault
  | store address value =>
    cases heffect
    exact Machine.untouched_of_storeInitial hfault
  | halt => cases heffect

end Operations

/-! ### Runs that fail -/

namespace Execution
variable {p : Program} {before after e : Execution} {error : RuntimeError}

/-- What the failing instruction makes of the execution before it. -/
structure BreaksOff (p : Program) (before : Execution) (error : RuntimeError) (after : Execution) : Prop where
  fetched : ∃ i, p.Fetches before.machine error.index i ∧ error.caption = i.caption
  outside : ∃ address, error.fault = .outOfBounds address ∧ ¬Word.Inside before.machine.memory.size address
  machine : after.machine =
    { before.machine with pc := Int64.ofNat (error.index + 1), log := #[], halted := true }
  count : after.count = before.count
  trace : before.trace.Receives [.caption error.caption] after.trace

theorem Runs.log_eq {limit : Nat} {m m' : Machine} {xs : List Executed} (h : Runs p limit m xs m')
    (hlog : m.log = #[]) : m'.log = #[] := by
  induction h with
  | limit => exact hlog
  | stopped => exact hlog
  | last hx => exact hx.log_eq
  | next hx _ _ ih => exact ih hx.log_eq

theorem log_batch (hlog : e.machine.log = #[]) (limit : Nat) : (batch p limit e).2.machine.log = #[] := by
  obtain ⟨xs, m', hruns⟩ := exists_runs p limit e.machine
  rw [(hruns.accounts e rfl hlog).1]
  exact hruns.log_eq hlog

theorem breaksOff_of_step (h : before.machine.StackInside) (hlog : before.machine.log = #[])
    (hstep : step p before = (.failed error, after)) : BreaksOff p before error after := by
  have hover : p.isOver before.machine = false := by
    cases hover : p.isOver before.machine with
    | false => rfl
    | true => rw [step_of_isOver hover] at hstep; cases hstep
  obtain ⟨x, hx⟩ := exists_executes hover
  have hfetches := hx.fetches
  rw [step_of_executes hlog hx] at hstep
  cases hx with
  | done => cases hstep
  | halted => cases hstep
  | @failed index i f fault m' fetch effect result =>
    cases hstep
    obtain ⟨rfl, address, hreported, houtside⟩ :=
      Effect.untouched_of_operation? (m := before.machine.fetched) h effect result
    exact ⟨⟨i, fetch, rfl⟩, ⟨address, hreported, houtside⟩,
      by rw [Word.ofNat_succ fetch.pc]; rfl, rfl, before.trace.receives_foldl _⟩

/-- A batch that fails runs some instructions, and the next one breaks off. -/
theorem exists_breaksOff (h : e.machine.StackInside) (hsize : e.machine.memory.size < 2 ^ 60)
    (hlog : e.machine.log = #[]) {limit : Nat} (hfails : (batch p limit e).1 = .error error) :
    ∃ k before, k < limit ∧ batch p k e = (.ok false, before) ∧ BreaksOff p before error (batch p limit e).2 := by
  obtain ⟨k, before, hk, hbatch, hstep⟩ := exists_failing_step hfails
  have hkept := kept_batch (p := p) h hsize k
  have hdrained := log_batch (p := p) hlog k
  rw [hbatch] at hkept hdrained
  exact ⟨k, before, hk, hbatch, breaksOff_of_step hkept.inside hdrained hstep⟩

end Execution

/-- An operation that fails leaves the machine as it was. A batch that fails leaves the machine as it was just before the
    instruction that failed, but for the program counter behind that instruction and the mark that it has halted; the
    caption of the instruction is the last line of the trace, and the instruction is not counted. After that no batch
    of any program changes anything. -/
theorem Execution.faults_atomic_and_final :
    (∀ (m m' : Machine) (op : Opcode) (x : Word) (fault : Fault), m.StackInside →
      m.apply op x = .error fault m' → m.Untouched m' fault) ∧
    (∀ (m m' : Machine) (address : Nat) (value : Word) (fault : Fault),
      m.storeInitial address value = .error fault m' → m.Untouched m' fault) ∧
    ∀ (p : Program) (e : Execution) (limit : Nat) (error : RuntimeError), e.machine.StackInside →
      e.machine.memory.size < 2 ^ 60 → e.machine.log = #[] → (e.batch p limit).1 = .error error →
      (∃ k before, k < limit ∧ e.batch p k = (.ok false, before) ∧ BreaksOff p before error (e.batch p limit).2) ∧
      ∀ (p' : Program) (limit' : Nat) (count : UInt64) (trace : Trace),
        Execution.batch p' limit' ⟨(e.batch p limit).2.machine, count, trace⟩ =
          (.ok true, ⟨(e.batch p limit).2.machine, count, trace⟩) := by
  refine ⟨fun m m' op x fault h hfault => Machine.untouched_of_apply h hfault,
    fun m m' address value fault hfault => Machine.untouched_of_storeInitial hfault, ?_⟩
  intro p e limit error h hsize hlog hfails
  obtain ⟨k, before, hk, hbatch, hbreaks⟩ := exists_breaksOff h hsize hlog hfails
  refine ⟨⟨k, before, hk, hbatch, hbreaks⟩, fun p' limit' count trace => ?_⟩
  have hhalted : (e.batch p limit).2.machine.halted = true := by rw [hbreaks.machine]
  exact batch_of_isOver (e := ⟨(e.batch p limit).2.machine, count, trace⟩) (isOver_of_halted hhalted) limit'

/-- A PSHI without an address fails on its own, as the second instruction of a run, and once only; an initial value
    cannot be stored at an address that is too large for a word. -/
theorem Execution.faults_atomic_and_final_pshi :
    Machine.Untouched { ac := -1, memory := ⟨#[0]⟩, log := #[.ac (-1)] }
      { ac := -1, memory := ⟨#[0]⟩, log := #[.ac (-1)] } (.outOfBounds (-1)) ∧
    Machine.Untouched { memory := ⟨#[0]⟩ } { memory := ⟨#[0]⟩ } (.outOfBounds Int64.minValue) ∧
    (∃ k before, k < 5 ∧ Session.failing.execution.batch Session.failing.program k = (.ok false, before) ∧
      BreaksOff Session.failing.program before ⟨.outOfBounds (-1), 1, "(1): PSHI"⟩
        (Session.failing.execution.batch Session.failing.program 5).2) := by
  obtain ⟨happly, hstore, hbatch⟩ := Execution.faults_atomic_and_final
  have hinside : Machine.StackInside { ac := -1, memory := ⟨#[0]⟩, log := #[.ac (-1)] } := Nat.one_pos
  have hfails : (Session.failing.execution.batch Session.failing.program 5).1 =
      .error ⟨.outOfBounds (-1), 1, "(1): PSHI"⟩ := rfl
  exact ⟨happly _ _ .pshi 0 _ hinside rfl, hstore _ _ 9223372036854775808 5 _ rfl,
    (hbatch _ Session.failing.execution 5 _ Nat.one_pos (by decide) rfl hfails).1⟩

end Mac1
