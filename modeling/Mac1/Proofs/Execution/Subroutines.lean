import Mac1.Proofs.Execution.Accounting
import Mac1.Proofs.Machine.Stack

/-! Subroutines. The instructions that a program executes move the stack as their operations do, so a return goes on
    behind the call that it matches, unless the calls are nested deeper than memory is long. -/

namespace Mac1
open Machine Motion

namespace Execution

/-- What an instruction has made of the stack, told by the machine that it left. -/
def Executed.motion (x : Executed) : Motion :=
  match x.ending, x.instruction.effect with
  | .done, .apply op _ =>
    match op with
    | .push | .pshi | .call => .stores (x.left.wordAt x.left.sp)
    | .pop => .takes x.left.ac
    | .retn => .takes x.left.pc
    | _ => .keeps
  | _, _ => .keeps

/-- The instruction applies an operation that leaves memory and the stack pointer to the stack. -/
def Executed.Orderly (x : Executed) : Prop := ∃ op y, x.instruction.effect = .apply op y ∧ op.orderly = true

variable {p : Program} {limit : Nat} {m m' start : Machine} {motions : List Motion} {x : Executed}

theorem Runs.of_nil (h : Runs p limit m [] m') : m' = m := by
  cases h <;> rfl

theorem Runs.of_cons {xs : List Executed} (h : Runs p limit m (x :: xs) m') :
    Executes p m x ∧ ∃ limit', Runs p limit' x.left xs m' := by
  cases h with
  | last hx => exact ⟨hx, 0, .limit _⟩
  | next hx _ rest => exact ⟨hx, _, rest⟩

/-! ### Instructions -/

theorem wordAt_of_get? {index : Nat} {value : Word} (h : m.memory.get? index = some value) :
    m.wordAt index = value := by
  rw [wordAt, Int.toNat_natCast, h, Option.getD_some]

/-- An instruction that applies an operation is done or fails as the operation does on the machine that has moved on. -/
theorem Executes.of_apply (hx : Executes p m x) {op : Opcode} {y : Word}
    (heffect : x.instruction.effect = .apply op y) :
    (∃ m₁, m.fetched.apply op y = .ok () m₁ ∧ x.ending = .done ∧ x.left = m₁.clearLog) ∨
    ∃ fault m₁, m.fetched.apply op y = .error fault m₁ ∧ x.ending = .failed fault ∧ x.left = m₁.clearLog.halt := by
  cases hx with
  | done fetch effect result =>
    rw [heffect] at effect
    cases effect
    exact .inl ⟨_, result, rfl, rfl⟩
  | failed fetch effect result =>
    rw [heffect] at effect
    cases effect
    exact .inr ⟨_, _, result, rfl, rfl⟩
  | halted fetch effect =>
    rw [heffect] at effect
    cases effect

section Instructions
variable (h : m.StackInside) (hsize : m.memory.size < 2 ^ 60) (hx : Executes p m x) {op : Opcode} {y : Word}
  (heffect : x.instruction.effect = .apply op y) (hop : op.orderly = true)
include h hsize hx heffect hop

theorem Executes.motion_eq : x.motion = m.fetched.motion op y := by
  have hmoved := moved_of_apply (m := m.fetched) h hsize hop y
  rcases hx.of_apply heffect with ⟨m₁, hok, hending, hleft⟩ | ⟨fault, m₁, hfault, hending, hleft⟩
  · rw [Machine.motion, hok] at hmoved
    rw [Executed.motion, Machine.motion, hok, heffect, hending, hleft]
    have htop (value : Word) (hstored : m₁.memory.get? m₁.sp = some value) :
        m₁.clearLog.wordAt m₁.clearLog.sp = value := wordAt_of_get? hstored
    cases op with
    | push | pshi | call => exact congrArg Motion.stores (htop _ (hmoved.stored _ rfl))
    | _ => rfl
  · rw [Executed.motion, Machine.motion, hfault, hending]

theorem Executes.applies (happlies : start.Applies motions m) :
    m.Kept x.left ∧ start.Applies (motions ++ [x.motion]) x.left := by
  have hmoved := moved_of_apply (m := m.fetched) h hsize hop y
  have hkept : m.fetched.Kept (after (m.fetched.apply op y)) := hmoved.kept h
  have hfetched : start.Applies motions m.fetched := happlies.set rfl rfl
  have happlied := hfetched.apply hop y
  rw [← hx.motion_eq h hsize heffect hop] at happlied
  rcases hx.of_apply heffect with ⟨m₁, hresult, -, hleft⟩ | ⟨fault, m₁, hresult, -, hleft⟩
  all_goals
    rw [hresult] at hkept happlied
    rw [hleft]
    exact ⟨⟨hkept.size, hkept.inside⟩, happlied.set rfl rfl⟩

end Instructions

/-- A call stores the index of the instruction behind it. -/
theorem Executes.motion_call (h : m.StackInside) (hsize : m.memory.size < 2 ^ 60) (hx : Executes p m x) {y : Word}
    (heffect : x.instruction.effect = .apply .call y) : x.motion = .stores (Int64.ofNat (x.index + 1)) := by
  obtain ⟨_, m₁, hok⟩ := checks_apply (m := m.fetched) h .call y
  rw [hx.motion_eq h hsize heffect rfl, Machine.motion, hok, Word.ofNat_succ hx.fetches.pc]
  rfl

theorem Executes.motion_retn (h : m.StackInside) (hx : Executes p m x) {y : Word}
    (heffect : x.instruction.effect = .apply .retn y) : x.motion = .takes x.left.pc := by
  obtain ⟨_, m₁, hok⟩ := checks_apply (m := m.fetched) h .retn y
  rcases hx.of_apply heffect with ⟨-, -, hending, -⟩ | ⟨fault, m₂, hfault, -, -⟩
  · rw [Executed.motion, heffect, hending]
  · rw [hok] at hfault
    cases hfault

/-! ### Runs -/

/-- The first instructions of a run, before the others. -/
theorem Runs.applies {xs ys : List Executed} (hinside : m.StackInside) (hsize : m.memory.size < 2 ^ 60)
    (happlies : start.Applies motions m) (hruns : Runs p limit m (xs ++ ys) m') (horderly : ∀ x ∈ xs, x.Orderly) :
    ∃ limit' m₁, m.Kept m₁ ∧ start.Applies (motions ++ xs.map Executed.motion) m₁ ∧ Runs p limit' m₁ ys m' := by
  induction xs generalizing limit m motions with
  | nil => exact ⟨limit, m, ⟨rfl, hinside⟩, by simpa using happlies, hruns⟩
  | cons x xs ih =>
    obtain ⟨hx, limit', hrest⟩ := hruns.of_cons
    obtain ⟨op, y, heffect, hop⟩ := horderly x List.mem_cons_self
    obtain ⟨hkept, hleft⟩ := hx.applies hinside hsize heffect hop happlies
    obtain ⟨limit'', m₁, hkept₁, happlies₁, hruns₁⟩ := ih hkept.inside (hkept.size ▸ hsize) hleft hrest
      fun z hz => horderly z (List.mem_cons_of_mem _ hz)
    rw [List.append_assoc] at happlies₁
    exact ⟨limit'', m₁, hkept.trans hkept₁, happlies₁, hruns₁⟩

theorem Runs.returns (hinside : m.StackInside) (hsize : m.memory.size < 2 ^ 60) {call retn : Executed}
    {body : List Executed} (hruns : Runs p limit m (call :: (body ++ [retn])) m') {y z : Word}
    (hcall : call.instruction.effect = .apply .call y) (hretn : retn.instruction.effect = .apply .retn z)
    (horderly : ∀ x ∈ body, x.Orderly) (hbalanced : Balanced (body.map Executed.motion))
    (hstays : StaysWithin (m.memory.size - 1) (body.map Executed.motion)) :
    m'.pc = Int64.ofNat (call.index + 1) ∧ m'.sp = m.sp := by
  have hfirst := hruns.of_cons.1.motion_call hinside hsize hcall
  have hall : ∀ x ∈ call :: body, x.Orderly := by
    intro x hx
    rcases List.mem_cons.mp hx with rfl | hx
    · exact ⟨_, _, hcall, rfl⟩
    · exact horderly x hx
  -- the return is executed on the machine that the call and the body leave
  rw [← List.cons_append] at hruns
  obtain ⟨limit', m₁, hkept, happlies, hlast⟩ := hruns.applies hinside hsize .nil hall
  obtain ⟨hx, limit'', hend⟩ := hlast.of_cons
  have htaken := hx.motion_retn hkept.inside hretn
  obtain rfl := hend.of_nil
  obtain ⟨-, hwhole⟩ := hx.applies hkept.inside (hkept.size ▸ hsize) hretn rfl happlies
  have hmotions : [] ++ (call :: body).map Executed.motion ++ [retn.motion] =
      .stores (Int64.ofNat (call.index + 1)) :: (body.map Executed.motion ++ [.takes retn.left.pc]) := by
    simp [hfirst, htaken]
  obtain ⟨hlevel, henclosed⟩ := hbalanced.enclosed (Int64.ofNat (call.index + 1)) retn.left.pc hstays
  rw [hmotions] at hwhole
  obtain ⟨hholds, htop⟩ := hwhole.holds hinside hsize (Int.le_refl _) henclosed
  constructor
  · exact ((htop.paired henclosed).same [] _ _ _ [] rfl hbalanced).symm
  · have hsp := hholds.sp
    rw [hlevel, slot_zero hinside] at hsp
    exact Int.ofNat_inj.mp hsp

end Execution

/-- The stack is a list up to a depth of the memory size, from which the word that was put on it last is taken first: it
    lies in the cells from the stack pointer upward, around the end of memory, and no cell that it has not reached has
    changed. A return that ends what a call began goes on behind the call. -/
theorem Execution.stack_refines_list (m : Machine) (h : m.StackInside) (hsize : m.memory.size < 2 ^ 60) :
    (∀ operations : List (Opcode × Word), (∀ operation ∈ operations, operation.1.orderly = true) →
      m.Applies (m.motionsOf operations) (m.applyAll operations)) ∧
    (∀ (motions : List Motion) (m' : Machine) (limit : Int), m.Applies motions m' → StaysWithin limit motions →
      limit ≤ m.memory.size → m.Holds limit motions m' ∧ Paired motions) ∧
    ∀ (p : Program) (limit : Nat) (m' : Machine) (call retn : Executed) (body : List Executed) (y z : Word),
      Runs p limit m (call :: (body ++ [retn])) m' → call.instruction.effect = .apply .call y →
      retn.instruction.effect = .apply .retn z → (∀ x ∈ body, x.Orderly) → Balanced (body.map Executed.motion) →
      StaysWithin (m.memory.size - 1) (body.map Executed.motion) →
      m'.pc = Int64.ofNat (call.index + 1) ∧ m'.sp = m.sp := by
  refine ⟨fun operations horderly => Applies.nil.append operations horderly, ?_, ?_⟩
  · intro motions m' limit happlies hstays hlimit
    obtain ⟨hholds, htop⟩ := happlies.holds h hsize hlimit hstays
    exact ⟨hholds, htop.paired hstays⟩
  · intro p limit m' call retn body y z hruns hcall hretn horderly hbalanced hstays
    exact hruns.returns h hsize hcall hretn horderly hbalanced hstays

/-- A program that calls a subroutine, which puts a word on the stack and takes it again. -/
def Program.calling : Program :=
  { instructions := #[⟨.apply .call 2, "(0): CALL 2", none⟩, ⟨.halt, "(1): END", none⟩,
      ⟨.apply .push 0, "(2): PUSH", none⟩, ⟨.apply .pop 0, "(3): POP", none⟩, ⟨.apply .retn 0, "(4): RETN", none⟩]
    symbols := ⟨[], []⟩ }

/-- In a memory of two cells the stack runs around the end of memory and fills it, while an operation in between fails;
    and the subroutine of a program that fills memory returns. -/
theorem Execution.stack_refines_list_full :
    Machine.Holds { ac := 5, sp := 1, memory := ⟨#[10, 11]⟩ } 2 [.stores 5, .stores 0, .keeps, .takes 0, .takes 5]
      (applyAll { ac := 5, sp := 1, memory := ⟨#[10, 11]⟩ }
        [(.push, 0), (.call, 3), (.lodd, 9), (.retn, 0), (.pop, 0)]) ∧
    Paired [.stores 5, .stores 0, .keeps, .takes 0, .takes 5] ∧
    ∃ call push pop retn m', Runs Program.calling 4 { ac := 5, sp := 1, memory := ⟨#[10, 11]⟩ }
      (call :: ([push, pop] ++ [retn])) m' ∧ m'.pc = 1 ∧ m'.sp = 1 := by
  obtain ⟨hall, hrefines, hreturns⟩ := Execution.stack_refines_list { ac := 5, sp := 1, memory := ⟨#[10, 11]⟩ }
    (show 1 < 2 by decide) (by decide)
  have happlies := hall [(.push, 0), (.call, 3), (.lodd, 9), (.retn, 0), (.pop, 0)] (by decide)
  obtain ⟨hholds, hpaired⟩ := hrefines _ _ 2 happlies (by decide) (by decide)
  have hruns := Runs.next (p := Program.calling) (m := { ac := 5, sp := 1, memory := ⟨#[10, 11]⟩ })
    (.done ⟨rfl, rfl, rfl⟩ rfl rfl) rfl <|
      .next (.done ⟨rfl, rfl, rfl⟩ rfl rfl) rfl <| .next (.done ⟨rfl, rfl, rfl⟩ rfl rfl) rfl <|
      .next (.done ⟨rfl, rfl, rfl⟩ rfl rfl) rfl <| .limit _
  have hstays : StaysWithin 1 [.stores 5, .takes 5] := by decide
  obtain ⟨hpc, hsp⟩ := hreturns _ _ _ _ _ [_, _] _ _ hruns rfl rfl
    (List.forall_mem_cons.mpr ⟨⟨.push, 0, rfl, rfl⟩, List.forall_mem_singleton.mpr ⟨.pop, 0, rfl, rfl⟩⟩)
    (hstays.balanced rfl) hstays
  exact ⟨hholds, hpaired, _, _, _, _, _, hruns, hpc, hsp⟩

end Mac1
