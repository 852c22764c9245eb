import Mac1.Execution

/-! A session: a program, the machine that it runs on, and how a fresh machine is made when the session starts
    over. -/

namespace Mac1

/-- A program in the course of its run. -/
structure Session where
  program : Program
  settings : Machine.Settings
  execution : Execution

namespace Session

/-- A session with a fresh machine. -/
def new (program : Program) (settings : Machine.Settings) (trace : Trace) : Session :=
  { program, settings, execution := { machine := .new settings, trace } }

/-- A session with the usual settings and without a trace. -/
def ofProgram (program : Program) : Session := new program {} .discarded

/-- Starts over with a fresh machine. The trace goes on. -/
def reset (s : Session) : Session :=
  { s with execution := { machine := .new s.settings, trace := s.execution.trace } }

/-- The run is over. -/
def isOver (s : Session) : Bool := s.program.isOver s.execution.machine

/-- Runs at most `limit` instructions. -/
def batch (limit : Nat) (s : Session) : Except RuntimeError Bool × Session :=
  let ⟨program, settings, execution⟩ := s
  let (result, execution) := execution.batch program limit
  (result, ⟨program, settings, execution⟩)

/-- Runs one instruction. -/
def step (s : Session) : Except RuntimeError Bool × Session := s.batch 1

/-- The number of instructions that `run` takes at a time. -/
def batchSize : Nat := 65536

/-- Runs batches until the run is over. There is no answer if it is not over after `rounds` batches. -/
def run (rounds : Nat) (s : Session) : Option (Except RuntimeError Unit) × Session :=
  match rounds with
  | 0 => (none, s)
  | rounds + 1 =>
    match s.batch batchSize with
    | (.error error, s) => (some (.error error), s)
    | (.ok true, s) => (some (.ok ()), s)
    | (.ok false, s) => run rounds s

end Session

end Mac1
