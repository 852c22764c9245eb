import Mathlib.Logic.Function.Iterate
import Mac1.Session

/-! Batches compose: two of them come to the same as one of their joint length. A run that has ended, be it by a
    fault, stays as it is, so it does not matter where in a batch it ends. The runs of a session follow:
    in batches until it is over, and step by step. -/

namespace Mac1

namespace Execution
variable {p : Program} {e e' : Execution}

/-! ### Runs that are over -/

theorem step_of_isOver (h : p.isOver e.machine = true) : step p e = (.over, e) := by
  rw [Program.isOver_eq_isNone_next?, Option.isNone_iff_eq_none] at h
  rw [step, h]

theorem batch_of_isOver (h : p.isOver e.machine = true) (limit : Nat) : batch p limit e = (.ok true, e) := by
  cases limit with
  | zero => rw [batch, h]
  | succ limit => rw [batch, step_of_isOver h]

theorem isOver_of_halted {m : Machine} (h : m.halted = true) : p.isOver m = true := by
  rw [Program.isOver, h, Bool.true_or]

theorem isOver_of_settle {index : Nat} {caption : String} {count : UInt64} {trace : Trace}
    {r : EStateM.Result Fault Machine Unit} {progress : Progress}
    (h : settle index caption count trace r = (progress, e')) (hp : progress ≠ .running) :
    p.isOver e'.machine = true := by
  cases r with
  | ok _ m =>
    cases h
    exact absurd rfl hp
  | error fault m =>
    cases h
    exact isOver_of_halted rfl

theorem isOver_of_step {progress : Progress} (h : step p e = (progress, e')) (hp : progress ≠ .running) :
    p.isOver e'.machine = true := by
  rw [step] at h
  split at h
  · next hnext =>
    cases h
    rw [Program.isOver_eq_isNone_next?, hnext, Option.isNone_none]
  · dsimp only at h
    split at h
    · exact isOver_of_settle h hp
    · exact isOver_of_settle h hp
    · cases h
      exact isOver_of_halted rfl

/-- A batch that ends with a fault, or with the answer that the run is over, leaves a run that is over. -/
theorem isOver_of_batch {limit : Nat} (h : (batch p limit e).1 ≠ .ok false) :
    p.isOver (batch p limit e).2.machine = true := by
  induction limit generalizing e with
  | zero =>
    rw [batch] at h ⊢
    simpa using h
  | succ limit ih =>
    rw [batch] at h ⊢
    split at h
    · exact ih h
    · next hstep => exact isOver_of_step hstep nofun
    · next hstep => exact isOver_of_step hstep nofun

/-! ### Two batches -/

/-- A batch of joint length runs the second batch after the first, unless the first fails. -/
theorem batch_add (a b : Nat) (e : Execution) : batch p (a + b) e =
    match batch p a e with
    | (.ok _, e') => batch p b e'
    | (.error error, e') => (.error error, e') := by
  induction a generalizing e with
  | zero => rw [Nat.zero_add, batch]
  | succ a ih =>
    rw [Nat.succ_add, batch, batch]
    cases hstep : step p e with
    | mk progress e' =>
      cases progress with
      | running => exact ih e'
      | «over» => exact (batch_of_isOver (isOver_of_step hstep nofun) b).symm
      | failed error => rfl

theorem batch_add_of_ok {a b : Nat} {ended : Bool} (h : (batch p a e).1 = .ok ended) :
    batch p (a + b) e = batch p b (batch p a e).2 := by
  rw [batch_add]
  cases hbatch : batch p a e with
  | mk answer e' =>
    rw [hbatch] at h
    obtain rfl : answer = .ok ended := h
    rfl

theorem batch_add_of_ne {a : Nat} (h : (batch p a e).1 ≠ .ok false) (b : Nat) :
    batch p (a + b) e = batch p a e := by
  rw [batch_add]
  have hover := isOver_of_batch h
  cases hbatch : batch p a e with
  | mk answer e' =>
    rw [hbatch] at h hover
    cases answer with
    | error error => rfl
    | ok ended =>
      obtain rfl : ended = true := by simpa using h
      exact batch_of_isOver hover b

theorem batch_eq_of_ne {a b : Nat} (ha : (batch p a e).1 ≠ .ok false) (hb : (batch p b e).1 ≠ .ok false) :
    batch p a e = batch p b e := by
  rcases Nat.le_total a b with hle | hle
  · obtain ⟨d, rfl⟩ := Nat.exists_eq_add_of_le hle
    exact (batch_add_of_ne ha d).symm
  · obtain ⟨d, rfl⟩ := Nat.exists_eq_add_of_le hle
    exact batch_add_of_ne hb d

/-- What two batches one after the other have to do with one batch of joint length. -/
structure Composes (p : Program) (a b : Nat) (e : Execution) : Prop where
  execution : (batch p b (batch p a e).2).2 = (batch p (a + b) e).2
  failed : ∀ error, (batch p a e).1 = .error error →
    (batch p (a + b) e).1 = .error error ∧ (batch p b (batch p a e).2).1 = .ok true
  answered : ∀ ended, (batch p a e).1 = .ok ended → (batch p (a + b) e).1 = (batch p b (batch p a e).2).1

theorem composes (p : Program) (a b : Nat) (e : Execution) : Composes p a b e := by
  have failed : ∀ error, (batch p a e).1 = .error error →
      batch p (a + b) e = batch p a e ∧ batch p b (batch p a e).2 = (.ok true, (batch p a e).2) := by
    intro error herror
    have hne : (batch p a e).1 ≠ .ok false := by simp [herror]
    exact ⟨batch_add_of_ne hne b, batch_of_isOver (isOver_of_batch hne) b⟩
  refine ⟨?_, fun error herror => ?_, fun ended hended => by rw [batch_add_of_ok hended]⟩
  · cases hanswer : (batch p a e).1 with
    | error error =>
      obtain ⟨hjoint, hsecond⟩ := failed error hanswer
      rw [hjoint, hsecond]
    | ok ended => rw [batch_add_of_ok hanswer]
  · obtain ⟨hjoint, hsecond⟩ := failed error herror
    rw [hjoint, hsecond]
    exact ⟨herror, rfl⟩

end Execution

/-! ### Sessions -/

namespace Session

theorem batch_eq (limit : Nat) (p : Program) (settings : Machine.Settings) (e : Execution) :
    batch limit ⟨p, settings, e⟩ = ((e.batch p limit).1, ⟨p, settings, (e.batch p limit).2⟩) := rfl

theorem iterate_step (k : Nat) (p : Program) (settings : Machine.Settings) (e : Execution) :
    (fun s : Session => s.step.2)^[k] ⟨p, settings, e⟩ = ⟨p, settings, (e.batch p k).2⟩ := by
  induction k with
  | zero => rfl
  | succ k ih => rw [Function.iterate_succ_apply', ih, step, batch_eq, (Execution.composes p k 1 e).execution]

theorem run_succ_of_not_over {p : Program} {settings : Machine.Settings} {e : Execution}
    (h : (e.batch p batchSize).1 = .ok false) (rounds : Nat) :
    run (rounds + 1) ⟨p, settings, e⟩ = run rounds ⟨p, settings, (e.batch p batchSize).2⟩ := by
  rw [run, batch_eq, h]

theorem run_succ_of_over {p : Program} {settings : Machine.Settings} {e : Execution}
    (h : (e.batch p batchSize).1 ≠ .ok false) (rounds : Nat) : run (rounds + 1) ⟨p, settings, e⟩ =
      (some ((e.batch p batchSize).1.map fun _ => ()), ⟨p, settings, (e.batch p batchSize).2⟩) := by
  rw [run, batch_eq]
  cases hanswer : (e.batch p batchSize).1 with
  | error error => rfl
  | ok ended =>
    obtain rfl : ended = true := by simpa [hanswer] using h
    rfl

/-- A session whose run ends within `k` instructions is run to that end, if it is given enough rounds. -/
theorem exists_run_eq {p : Program} {settings : Machine.Settings} {k : Nat} {e : Execution}
    (h : (e.batch p k).1 ≠ .ok false) :
    ∃ rounds, ∀ more, rounds ≤ more → run more ⟨p, settings, e⟩ =
      (some ((e.batch p k).1.map fun _ => ()), ⟨p, settings, (e.batch p k).2⟩) := by
  induction k using Nat.strongRecOn generalizing e with
  | ind k ih =>
    by_cases hround : (e.batch p batchSize).1 = .ok false
    · -- the round stops at its limit, so the run ends within the instructions that are left
      have hlt : batchSize < k := by
        rcases Nat.lt_or_ge batchSize k with hlt | hle
        · exact hlt
        · obtain ⟨d, hd⟩ := Nat.exists_eq_add_of_le hle
          rw [hd, Execution.batch_add_of_ne h d] at hround
          exact absurd hround h
      obtain ⟨rest, rfl⟩ := Nat.exists_eq_add_of_le (Nat.le_of_lt hlt)
      rw [Execution.batch_add_of_ok hround] at h ⊢
      obtain ⟨rounds, hrounds⟩ := ih rest (Nat.lt_add_of_pos_left (by decide)) h
      refine ⟨rounds + 1, fun more hmore => ?_⟩
      obtain ⟨d, rfl⟩ := Nat.exists_eq_add_of_le hmore
      rw [Nat.add_right_comm, run_succ_of_not_over hround, hrounds _ (Nat.le_add_right rounds d)]
    · refine ⟨1, fun more hmore => ?_⟩
      obtain ⟨d, rfl⟩ := Nat.exists_eq_add_of_le hmore
      rw [Nat.add_comm, run_succ_of_over hround, Execution.batch_eq_of_ne hround h]

end Session

/-- Two batches compose to one of joint length. A session whose run ends within `k` instructions is run to the end
    that a batch of `k` finds, with its answer, and so do `k` steps. -/
theorem Session.batches_compose (p : Program) (settings : Machine.Settings) (e : Execution) :
    (∀ a b, Execution.Composes p a b e) ∧
      ∀ k, (Session.batch k ⟨p, settings, e⟩).1 ≠ .ok false →
        (∃ rounds, ∀ more, rounds ≤ more → Session.run more ⟨p, settings, e⟩ =
          (some ((Session.batch k ⟨p, settings, e⟩).1.map fun _ => ()), (Session.batch k ⟨p, settings, e⟩).2)) ∧
        (fun s : Session => s.step.2)^[k] ⟨p, settings, e⟩ = (Session.batch k ⟨p, settings, e⟩).2 := by
  exact ⟨fun a b => Execution.composes p a b e, fun k h => ⟨exists_run_eq h, iterate_step k p settings e⟩⟩

/-- A session whose second instruction reads outside of memory. -/
def Session.failing : Session where
  program := ⟨#[⟨.apply .loco (-1), "(0): LOCO -1", some 1⟩, ⟨.apply .pshi 0, "(1): PSHI", some 2⟩], ⟨[], []⟩⟩
  settings := {}
  execution := { machine := { memory := ⟨#[0]⟩ }, trace := .empty }

/-- A run whose second instruction fails ends with its fault. -/
theorem Session.batches_compose_failing : ∃ rounds, ∀ more, rounds ≤ more →
    (Session.run more .failing).1 = some (.error ⟨.outOfBounds (-1), 1, "(1): PSHI"⟩) := by
  have hfails : (Session.batch 2 .failing).1 = .error ⟨.outOfBounds (-1), 1, "(1): PSHI"⟩ := by rfl
  have hends : (Session.batch 2 .failing).1 ≠ .ok false := by
    rw [hfails]
    nofun
  obtain ⟨⟨rounds, hrounds⟩, -⟩ := (Session.batches_compose _ _ _).2 2 hends
  refine ⟨rounds, fun more hmore => ?_⟩
  have hrun := congrArg Prod.fst (hrounds more hmore)
  exact hrun.trans (congrArg (fun answer => some (answer.map fun _ => ())) hfails)

end Mac1
