import Mac1.Execution
import Mac1.Proofs.Trace.Replay

/-! What every step keeps, however it ends: memory has the same number of cells, and the stack pointer stands inside
    it. -/

namespace Mac1

namespace Machine

/-- Memory keeps its size, and the stack pointer is inside. -/
structure Kept (m m' : Machine) : Prop where
  size : m'.memory.size = m.memory.size
  inside : m'.StackInside

theorem Kept.trans {m m' m'' : Machine} (h : Kept m m') (h' : Kept m' m'') : Kept m m'' :=
  ⟨h'.size.trans h.size, h'.inside⟩

theorem Follows.kept {m m' : Machine} (h : Follows m m') : Kept m m' := ⟨h.size, h.inside⟩

/-- The machine at the end of an operation, which is known after a failure too. -/
def after {ε α : Type} : EStateM.Result ε Machine α → Machine
  | .ok _ m => m
  | .error _ m => m

theorem kept_after {α : Type} {f : MicroOp α} {m : Machine} {Q : α → Machine → Prop} (h : MicroOp.Runs f m Q) :
    Kept m (after (f m)) := by
  unfold MicroOp.Runs at h
  cases hf : f m with
  | ok a m' =>
    rw [hf] at h
    exact h.1.kept
  | error fault m' =>
    rw [hf] at h
    exact h.kept

end Machine

namespace Execution
variable {p : Program} {e : Execution}

theorem kept_settle {m : Machine} {r : EStateM.Result Fault Machine Unit} (h : m.Kept (Machine.after r)) (index : Nat)
    (caption : String) (count : UInt64) (trace : Trace) :
    m.Kept (settle index caption count trace r).2.machine := by
  cases r with
  | ok _ m' => exact ⟨h.size, h.inside⟩
  | error fault m' => exact ⟨h.size, h.inside⟩

theorem kept_step (h : e.machine.StackInside) (hsize : e.machine.memory.size < 2 ^ 60) :
    e.machine.Kept (step p e).2.machine := by
  rw [step]
  cases p.next? e.machine with
  | none => exact ⟨rfl, h⟩
  | some found =>
    obtain ⟨index, i⟩ := found
    have hfetched : e.machine.Kept { e.machine with pc := e.machine.pc + 1 } := ⟨rfl, h⟩
    dsimp only
    cases i.effect with
    | apply op x =>
      exact hfetched.trans (kept_settle (Machine.kept_after (Machine.runs_apply hfetched.inside hsize op x)) _ _ _ _)
    | store address value =>
      have hruns := Machine.runs_storeInitial hfetched.inside address value
      exact hfetched.trans (kept_settle (Machine.kept_after hruns) _ _ _ _)
    | halt => exact ⟨rfl, h⟩

theorem kept_batch (h : e.machine.StackInside) (hsize : e.machine.memory.size < 2 ^ 60) (limit : Nat) :
    e.machine.Kept (batch p limit e).2.machine := by
  induction limit generalizing e with
  | zero => exact ⟨rfl, h⟩
  | succ limit ih =>
    have hstep := kept_step (p := p) h hsize
    rw [batch]
    cases hresult : step p e with
    | mk progress e' =>
      rw [hresult] at hstep
      cases progress with
      | running => exact hstep.trans (ih hstep.inside (hstep.size ▸ hsize))
      | «over» => exact hstep
      | failed error => exact hstep

end Execution

end Mac1
