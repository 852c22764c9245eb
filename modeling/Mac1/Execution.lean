import Mac1.Assembly.Program
import Mac1.Machine.Apply
import Mac1.Trace

/-! Running a program on a machine. A run is made of steps, and a batch is a bounded number of them. The run is
    over when the machine is halted or the program counter has left the program; then further batches
    change nothing. A failing instruction halts the machine and is reported once. -/

namespace Mac1

namespace Program

/-- The instruction that comes next, with its index. There is none if the machine is halted or the program
    counter stands outside of the program. -/
def next? (p : Program) (m : Machine) : Option (Nat × Instruction) :=
  if m.halted then none
  else (Word.index? p.size m.pc).bind fun index => p.instructions[index]?.map (index, ·)

/-- No instruction of the program comes next. -/
def isOver (p : Program) (m : Machine) : Bool := m.halted || (Word.index? p.size m.pc).isNone

theorem isOver_eq_isNone_next? (p : Program) (m : Machine) : p.isOver m = (p.next? m).isNone := by
  unfold isOver next?
  cases m.halted
  · cases h : Word.index? p.size m.pc with
    | none => rfl
    | some index =>
      have hlt : index < p.instructions.size := (Word.index?_eq_some_iff.mp h).2
      simp [hlt]
  · rfl

end Program

/-- A machine in a run, the number of instructions it has run, and the trace of the run. The instruction that
    halts the machine and one that fails are not counted. -/
structure Execution where
  machine : Machine
  count : UInt64 := 0
  trace : Trace
  deriving DecidableEq, Repr

namespace Execution

/-- How a step ends. -/
inductive Progress where
  | running
  | over
  | failed (error : RuntimeError)
  deriving DecidableEq, Repr

/-- What a step comes to when the operation of an instruction has been tried: the changes go from the log of
    the machine to the trace, and a fault halts the machine. -/
def settle (index : Nat) (caption : String) (count : UInt64) (trace : Trace) :
    EStateM.Result Fault Machine Unit → Progress × Execution
  | .ok () machine =>
    let trace := trace.pushChanges machine.log
    (.running, ⟨machine.clearLog, count + 1, trace⟩)
  | .error fault machine =>
    let trace := trace.pushChanges machine.log
    (.failed ⟨fault, index, caption⟩, ⟨machine.clearLog.halt, count, trace⟩)

/-- Runs the next instruction. The one that halts the machine leaves the log as it is. -/
def step (p : Program) (e : Execution) : Progress × Execution :=
  match p.next? e.machine with
  | none => (.over, e)
  | some (index, instruction) =>
    let ⟨machine, count, trace⟩ := e
    let trace := trace.push (.caption instruction.caption)
    let machine := { machine with pc := machine.pc + 1 }
    match instruction.effect with
    | .apply op x => settle index instruction.caption count trace (machine.apply op x)
    | .store address value => settle index instruction.caption count trace (machine.storeInitial address value)
    | .halt => (.over, ⟨machine.halt, count, trace⟩)

/-- Runs at most `limit` instructions. The answer tells whether the run is over, or which instruction
    failed. -/
def batch (p : Program) (limit : Nat) (e : Execution) : Except RuntimeError Bool × Execution :=
  match limit with
  | 0 => (.ok (p.isOver e.machine), e)
  | limit + 1 =>
    match step p e with
    | (.running, e) => batch p limit e
    | (.over, e) => (.ok true, e)
    | (.failed error, e) => (.error error, e)

end Execution

end Mac1
