import Mac1.Proofs.Execution.Batches
import Mac1.Proofs.Trace.Record

/-! The account of a run. `Executes` says what it is to execute one instruction, and `Runs` lists the instructions that
    are executed one after the other, without a count or a trace. A batch answers, counts and sends to the trace what
    this list tells. -/

namespace Mac1

/-- What becomes of a trace when lines are sent to it. A collected trace has them behind those that it had. -/
structure Trace.Receives (t : Trace) (sent : List TraceLine) (t' : Trace) : Prop where
  pushed : t' = sent.foldl Trace.push t
  collected : ∀ lines, t = .collected lines → t' = .collected (lines ++ sent.toArray)

/-! ### Executed instructions -/

/-- The machine as an instruction finds it: the program counter has moved on, and nothing is logged yet. -/
def Machine.fetched (m : Machine) : Machine := { m with pc := m.pc + 1, log := #[] }

/-- What an instruction other than the halting one does to the machine. -/
def Effect.operation? : Effect → Option (Machine.MicroOp Unit)
  | .apply op x => some (Machine.apply op x)
  | .store address value => some (Machine.storeInitial address value)
  | .halt => none

/-- The program counter of a machine that is not halted stands at an instruction. -/
structure Program.Fetches (p : Program) (m : Machine) (index : Nat) (i : Instruction) : Prop where
  running : m.halted = false
  pc : m.pc.toInt = index
  found : p.instructions[index]? = some i

namespace Execution

/-- How an instruction ends. -/
inductive Ending where
  | done
  | halted
  | failed (fault : Fault)
  deriving DecidableEq, Repr

/-- An instruction that was executed: its index, the entries that it logged, how it ended, and the machine that it
    left. -/
structure Executed where
  index : Nat
  instruction : Instruction
  mutations : List Mutation
  ending : Ending
  left : Machine

/-- The lines that a trace shows of an instruction. -/
def Executed.lines (x : Executed) : List String :=
  x.instruction.caption :: x.mutations.map fun entry => "    " ++ entry.render

/-- The same lines, before they are written as text. -/
def Executed.traceLines (x : Executed) : List TraceLine :=
  .caption x.instruction.caption :: x.mutations.map .change

/-- How a run goes on after the instruction. -/
def Executed.progress (x : Executed) : Progress :=
  match x.ending with
  | .done => .running
  | .halted => .over
  | .failed fault => .failed ⟨fault, x.index, x.instruction.caption⟩

/-- The instruction at the program counter is executed. -/
inductive Executes (p : Program) (m : Machine) : Executed → Prop where
  | done {index : Nat} {i : Instruction} {f : Machine.MicroOp Unit} {m' : Machine} (fetch : p.Fetches m index i)
    (effect : i.effect.operation? = some f) (result : f m.fetched = .ok () m') :
    Executes p m ⟨index, i, m'.log.toList, .done, m'.clearLog⟩
  | failed {index : Nat} {i : Instruction} {f : Machine.MicroOp Unit} {fault : Fault} {m' : Machine}
    (fetch : p.Fetches m index i) (effect : i.effect.operation? = some f) (result : f m.fetched = .error fault m') :
    Executes p m ⟨index, i, m'.log.toList, .failed fault, m'.clearLog.halt⟩
  | halted {index : Nat} {i : Instruction} (fetch : p.Fetches m index i) (effect : i.effect = .halt) :
    Executes p m ⟨index, i, [], .halted, m.fetched.halt⟩

/-- The instructions that are executed from a machine on, `limit` at most, and the machine at the end. Nothing is
    executed after an instruction that halts the machine or fails. -/
inductive Runs (p : Program) : Nat → Machine → List Executed → Machine → Prop where
  | limit (m : Machine) : Runs p 0 m [] m
  | stopped {limit : Nat} {m : Machine} (h : p.isOver m = true) : Runs p limit m [] m
  | last {limit : Nat} {m : Machine} {x : Executed} (h : Executes p m x) (hx : x.ending ≠ .done) :
    Runs p (limit + 1) m [x] x.left
  | next {limit : Nat} {m m' : Machine} {x : Executed} {xs : List Executed} (h : Executes p m x)
    (hx : x.ending = .done) (rest : Runs p limit x.left xs m') : Runs p (limit + 1) m (x :: xs) m'

/-- The number of instructions that are counted: neither the one that halts the machine nor one that fails is. -/
def counted (xs : List Executed) : Nat := xs.countP fun x => x.ending = .done

/-- What a batch leaves, told by the instructions that it executes. -/
structure Accounts (p : Program) (limit : Nat) (e : Execution) (xs : List Executed)
    (answer : Except RuntimeError Bool) (e' : Execution) : Prop where
  sent : ∃ lines : List TraceLine, e.trace.Receives lines e'.trace ∧
    lines.map TraceLine.render = xs.flatMap Executed.lines
  captions : ∀ x ∈ xs, p.captions[x.index]? = some x.instruction.caption
  first : ∀ x, xs[0]? = some x → e.machine.pc.toInt = x.index
  following : ∀ j x y, xs[j]? = some x → xs[j + 1]? = some y → x.left.pc.toInt = y.index
  count : e'.count = e.count + UInt64.ofNat (counted xs)
  full : answer = .ok false → counted xs = limit
  answered : ∀ ended, answer = .ok ended → ended = p.isOver e'.machine
  failed : ∀ error, answer = .error error → e'.machine.halted = true

end Execution

/-! ### One instruction -/

theorem Trace.receives_foldl (t : Trace) (sent : List TraceLine) : t.Receives sent (sent.foldl push t) where
  pushed := rfl
  collected := by
    rintro lines rfl
    exact foldl_push_collected sent lines

theorem Trace.Receives.append {t t' t'' : Trace} {sent sent' : List TraceLine} (h : t.Receives sent t')
    (h' : t'.Receives sent' t'') : t.Receives (sent ++ sent') t'' := by
  rw [h'.pushed, h.pushed, ← List.foldl_append]
  exact receives_foldl t _

theorem Program.fetches_iff {p : Program} {m : Machine} {index : Nat} {i : Instruction} :
    p.Fetches m index i ↔ p.next? m = some (index, i) := by
  rw [next?_eq_some_iff, Word.index?_eq_some_iff]
  constructor
  · intro h
    obtain ⟨hlt, -⟩ := Array.getElem?_eq_some_iff.mp h.found
    exact ⟨h.running, ⟨h.pc, hlt⟩, h.found⟩
  · intro h
    obtain ⟨hrunning, ⟨hpc, -⟩, hfound⟩ := h
    exact ⟨hrunning, hpc, hfound⟩

namespace Execution
variable {p : Program} {e : Execution} {x : Executed}

theorem step_of_operation? {index : Nat} {i : Instruction} {f : Machine.MicroOp Unit}
    (hnext : p.next? e.machine = some (index, i)) (heffect : i.effect.operation? = some f) :
    step p e = settle index i.caption e.count (e.trace.push (.caption i.caption))
      (f { e.machine with pc := e.machine.pc + 1 }) := by
  rw [step, hnext]
  cases heff : i.effect with
  | apply op x =>
    rw [heff] at heffect
    cases heffect
    simp only [heff]
  | store address value =>
    rw [heff] at heffect
    cases heffect
    simp only [heff]
  | halt =>
    rw [heff] at heffect
    cases heffect

theorem Executes.fetches {m : Machine} (h : Executes p m x) : p.Fetches m x.index x.instruction := by
  cases h <;> assumption

theorem Executes.log_eq {m : Machine} (h : Executes p m x) : x.left.log = #[] := by
  cases h <;> rfl

theorem Executes.halted_of_ne {m : Machine} (h : Executes p m x) (hx : x.ending ≠ .done) : x.left.halted = true := by
  cases h with
  | done => exact absurd rfl hx
  | failed => rfl
  | halted => rfl

theorem exists_executes {m : Machine} (h : p.isOver m = false) : ∃ x, Executes p m x := by
  rw [Program.isOver_eq_isNone_next?, Option.isNone_eq_false_iff, Option.isSome_iff_exists] at h
  obtain ⟨⟨index, i⟩, hnext⟩ := h
  have hfetch := Program.fetches_iff.mpr hnext
  cases heffect : i.effect.operation? with
  | none =>
    have hhalt : i.effect = .halt := by
      cases heff : i.effect with
      | halt => rfl
      | apply op x => rw [heff] at heffect; cases heffect
      | store address value => rw [heff] at heffect; cases heffect
    exact ⟨_, .halted hfetch hhalt⟩
  | some f =>
    cases hresult : f m.fetched with
    | ok _ m' => exact ⟨_, .done hfetch heffect hresult⟩
    | error fault m' => exact ⟨_, .failed hfetch heffect hresult⟩

/-- A step counts an instruction that is done, and sends the caption and the entries to the trace. -/
theorem step_of_executes (hlog : e.machine.log = #[]) (h : Executes p e.machine x) :
    step p e = (x.progress, ⟨x.left, if x.ending = .done then e.count + 1 else e.count,
      x.traceLines.foldl Trace.push e.trace⟩) := by
  have hfetched : { e.machine with pc := e.machine.pc + 1 } = e.machine.fetched := by rw [Machine.fetched, ← hlog]
  have hnext := Program.fetches_iff.mp h.fetches
  rw [Executed.traceLines, List.foldl_cons]
  cases h with
  | done fetch effect result =>
    rw [step_of_operation? hnext effect, hfetched, result, ← Trace.pushChanges_eq_foldl]
    rfl
  | failed fetch effect result =>
    rw [step_of_operation? hnext effect, hfetched, result, ← Trace.pushChanges_eq_foldl]
    rfl
  | halted fetch effect =>
    rw [step, hnext]
    simp only [effect, hfetched]
    rfl

theorem batch_of_done (hlog : e.machine.log = #[]) (h : Executes p e.machine x) (hx : x.ending = .done)
    (limit : Nat) : batch p (limit + 1) e =
      batch p limit ⟨x.left, e.count + 1, x.traceLines.foldl Trace.push e.trace⟩ := by
  rw [batch, step_of_executes hlog h, Executed.progress, hx]
  rfl

theorem batch_of_ne_done (hlog : e.machine.log = #[]) (h : Executes p e.machine x) (hx : x.ending ≠ .done)
    (limit : Nat) : (batch p (limit + 1) e).1 ≠ .ok false ∧
      (batch p (limit + 1) e).2 = ⟨x.left, e.count, x.traceLines.foldl Trace.push e.trace⟩ := by
  rw [batch, step_of_executes hlog h, Executed.progress, if_neg hx]
  cases hending : x.ending with
  | done => exact absurd hending hx
  | halted => exact ⟨by simp, rfl⟩
  | failed fault => exact ⟨by simp, rfl⟩

/-! ### Runs -/

theorem exists_runs (p : Program) (limit : Nat) (m : Machine) : ∃ xs m', Runs p limit m xs m' := by
  induction limit generalizing m with
  | zero => exact ⟨[], m, .limit m⟩
  | succ limit ih =>
    cases hover : p.isOver m with
    | true => exact ⟨[], m, .stopped hover⟩
    | false =>
      obtain ⟨x, hx⟩ := exists_executes hover
      by_cases hdone : x.ending = .done
      · obtain ⟨xs, m', hrest⟩ := ih x.left
        exact ⟨x :: xs, m', .next hx hdone hrest⟩
      · exact ⟨[x], x.left, .last hx hdone⟩

theorem Runs.eq_nil_of_isOver {limit : Nat} {m m' : Machine} {xs : List Executed} (h : Runs p limit m xs m')
    (hover : p.isOver m = true) : xs = [] := by
  have absurd_of {x : Executed} (hx : Executes p m x) : False := by
    have hnext := Program.fetches_iff.mp hx.fetches
    rw [Program.isOver_eq_isNone_next?, hnext] at hover
    cases hover
  cases h with
  | limit => rfl
  | stopped => rfl
  | last hx => exact (absurd_of hx).elim
  | next hx => exact (absurd_of hx).elim

theorem Executed.render_traceLines (x : Executed) : x.traceLines.map TraceLine.render = x.lines := by
  rw [traceLines, List.map_cons, List.map_map]
  rfl

theorem Executes.caption {m : Machine} (h : Executes p m x) : p.captions[x.index]? = some x.instruction.caption := by
  rw [Program.captions, List.getElem?_map, Array.getElem?_toList, h.fetches.found, Option.map_some]

namespace Accounts
variable {limit : Nat} {answer : Except RuntimeError Bool} {e' : Execution} {xs : List Executed}

/-- Nothing is executed. -/
theorem nil (hfull : answer = .ok false → limit = 0) (hanswer : answer = .ok (p.isOver e.machine)) :
    Accounts p limit e [] answer e := by
  subst hanswer
  have huncounted : counted [] = 0 := rfl
  constructor
  case sent => exact ⟨[], e.trace.receives_foldl [], rfl⟩
  case captions =>
    intro x hx
    cases hx
  case first =>
    intro x hx
    cases hx
  case following =>
    intro j x y hx
    cases hx
  case count => rw [huncounted]; exact (UInt64.add_zero _).symm
  case full => exact fun hrunning => (hfull hrunning).symm
  case answered => exact fun ended hended => (Except.ok.inj hended).symm
  case failed =>
    intro error herror
    cases herror

/-- The only instruction that is executed halts the machine or fails. -/
theorem last (hlog : e.machine.log = #[]) (h : Executes p e.machine x) (hx : x.ending ≠ .done) :
    Accounts p (limit + 1) e [x] (batch p (limit + 1) e).1 (batch p (limit + 1) e).2 := by
  obtain ⟨hanswer, hlast⟩ := batch_of_ne_done hlog h hx limit
  have hhalted := h.halted_of_ne hx
  have huncounted : counted [x] = 0 := by simp [counted, hx]
  rw [hlast]
  constructor
  case sent => exact ⟨x.traceLines, e.trace.receives_foldl _, by rw [x.render_traceLines, List.flatMap_singleton]⟩
  case captions =>
    intro y hy
    cases List.mem_singleton.mp hy
    exact h.caption
  case first =>
    intro y hy
    cases hy
    exact h.fetches.pc
  case following =>
    intro j y z _ hz
    cases hz
  case count => rw [huncounted]; exact (UInt64.add_zero _).symm
  case full => exact fun hrunning => absurd hrunning hanswer
  case answered =>
    intro ended hended
    rw [isOver_of_halted hhalted]
    cases ended with
    | true => rfl
    | false => exact absurd hended hanswer
  case failed => exact fun _ _ => hhalted

/-- One instruction is done before the others. -/
theorem cons (h : Executes p e.machine x) (hx : x.ending = .done)
    (hrest : Accounts p limit ⟨x.left, e.count + 1, x.traceLines.foldl Trace.push e.trace⟩ xs answer e') :
    Accounts p (limit + 1) e (x :: xs) answer e' := by
  have hcounted : counted (x :: xs) = counted xs + 1 := by simp [counted, hx]
  constructor
  case sent =>
    obtain ⟨lines, hreceives, hlines⟩ := hrest.sent
    refine ⟨x.traceLines ++ lines, (e.trace.receives_foldl _).append hreceives, ?_⟩
    rw [List.map_append, x.render_traceLines, hlines, List.flatMap_cons]
  case captions =>
    intro y hy
    rcases List.mem_cons.mp hy with rfl | hy
    · exact h.caption
    · exact hrest.captions y hy
  case first =>
    intro y hy
    cases hy
    exact h.fetches.pc
  case following =>
    intro j y z hy hz
    cases j with
    | zero =>
      cases hy
      exact hrest.first z hz
    | succ j => exact hrest.following j y z hy hz
  case count =>
    rw [hcounted, hrest.count, UInt64.ofNat_add, UInt64.add_assoc, UInt64.add_comm 1]
    rfl
  case full => exact fun hrunning => by rw [hcounted, hrest.full hrunning]
  case answered => exact hrest.answered
  case failed => exact hrest.failed

end Accounts

theorem Runs.accounts {limit : Nat} {m m' : Machine} {xs : List Executed} (h : Runs p limit m xs m') :
    ∀ e : Execution, e.machine = m → m.log = #[] →
      (batch p limit e).2.machine = m' ∧ Accounts p limit e xs (batch p limit e).1 (batch p limit e).2 := by
  induction h with
  | limit m =>
    intro e hm _
    exact ⟨hm, .nil (fun _ => rfl) rfl⟩
  | stopped hover =>
    intro e hm _
    subst hm
    rw [batch_of_isOver hover]
    exact ⟨rfl, .nil (fun hrunning => by cases hrunning) (congrArg Except.ok hover.symm)⟩
  | @last limit m x h hx =>
    intro e hm hlog
    subst hm
    exact ⟨congrArg machine (batch_of_ne_done hlog h hx limit).2, .last hlog h hx⟩
  | @next limit m m' x xs h hx _ ih =>
    intro e hm hlog
    subst hm
    rw [batch_of_done hlog h hx]
    obtain ⟨hmachine, hrest⟩ := ih ⟨x.left, e.count + 1, x.traceLines.foldl Trace.push e.trace⟩ rfl h.log_eq
    exact ⟨hmachine, .cons h hx hrest⟩

end Execution

/-- The instructions that a batch executes account for what it leaves, however it ends. A batch on a machine that has
    halted, or whose program counter stands outside of the program, executes nothing and changes nothing. -/
theorem Execution.batch_accounted (p : Program) (limit : Nat) (e : Execution) (hlog : e.machine.log = #[]) :
    (∃ xs m', Runs p limit e.machine xs m') ∧
    (∀ xs m', Runs p limit e.machine xs m' →
      (e.batch p limit).2.machine = m' ∧ Accounts p limit e xs (e.batch p limit).1 (e.batch p limit).2) ∧
    (p.isOver e.machine = true →
      (∀ xs m', Runs p limit e.machine xs m' → xs = []) ∧ e.batch p limit = (.ok true, e)) := by
  refine ⟨exists_runs p limit e.machine, fun xs m' hruns => hruns.accounts e rfl hlog, fun hover => ?_⟩
  exact ⟨fun xs m' hruns => hruns.eq_nil_of_isOver hover, batch_of_isOver hover limit⟩

/-- A run whose second instruction fails is accounted for, and so is a batch on a machine that is halted. -/
theorem Execution.batch_accounted_failing :
    (∃ xs, Runs Session.failing.program 9 Session.failing.execution.machine xs
        (Session.failing.execution.batch Session.failing.program 9).2.machine ∧
      Accounts Session.failing.program 9 Session.failing.execution xs (.error ⟨.outOfBounds (-1), 1, "(1): PSHI"⟩)
        (Session.failing.execution.batch Session.failing.program 9).2) ∧
    Execution.batch Session.failing.program 9 ⟨{ memory := ⟨#[0]⟩, halted := true }, 7, .empty⟩ =
      (.ok true, ⟨{ memory := ⟨#[0]⟩, halted := true }, 7, .empty⟩) := by
  obtain ⟨⟨xs, m', hruns⟩, haccounts, -⟩ := Execution.batch_accounted Session.failing.program 9
    Session.failing.execution rfl
  obtain ⟨rfl, haccount⟩ := haccounts xs m' hruns
  obtain ⟨-, -, hhalted⟩ := Execution.batch_accounted Session.failing.program 9
    ⟨{ memory := ⟨#[0]⟩, halted := true }, 7, .empty⟩ rfl
  exact ⟨⟨xs, hruns, haccount⟩, (hhalted rfl).2⟩

end Mac1
