import Mac1.Machine.Mutation

/-! The trace of a run: a line for each instruction, its caption, and below it a line for each change that the
    instruction made. A run that nobody follows discards its trace. -/

namespace Mac1

/-- A line of a trace. -/
inductive TraceLine where
  | caption (text : String)
  | change (mutation : Mutation)
  /-- A remark that does not come from an instruction. -/
  | remark (text : String)
  deriving DecidableEq, Repr

/-- The text of a line. Changes are indented by four spaces. -/
def TraceLine.render : TraceLine → String
  | .caption text => text
  | .change mutation => "    " ++ mutation.render
  | .remark text => text

/-- What becomes of the trace: its lines are collected or discarded. -/
inductive Trace where
  | collected (lines : Array TraceLine)
  | discarded
  deriving DecidableEq, Repr

namespace Trace

/-- A trace to be collected, without lines so far. -/
def empty : Trace := .collected #[]

/-- Adds a line. -/
@[inline] def push (t : Trace) (line : TraceLine) : Trace :=
  match t with
  | .collected lines => .collected (lines.push line)
  | .discarded => .discarded

/-- Adds a line for each change. -/
def pushChanges (t : Trace) (mutations : Array Mutation) : Trace :=
  match t with
  | .collected lines => .collected (mutations.foldl (fun lines m => lines.push (.change m)) lines)
  | .discarded => .discarded

/-- Lines that are added to a collected trace stand behind those that it has. -/
theorem foldl_push_collected (added : List TraceLine) (lines : Array TraceLine) :
    added.foldl push (.collected lines) = .collected (lines ++ added.toArray) := by
  induction added generalizing lines with
  | nil => rw [List.foldl_nil, Array.append_empty]
  | cons line added ih =>
    rw [List.foldl_cons, push, ih, List.toArray_cons, Array.push_eq_append, Array.append_assoc]

theorem foldl_push_discarded (added : List TraceLine) : added.foldl push .discarded = .discarded := by
  induction added with
  | nil => rfl
  | cons line added ih => exact ih

theorem pushChanges_collected (lines : Array TraceLine) (mutations : Array Mutation) :
    (collected lines).pushChanges mutations = .collected (lines ++ mutations.map .change) := by
  rw [pushChanges, Array.foldl_push_eq_append rfl]

/-- Changes are added one line after the other. -/
theorem pushChanges_eq_foldl (t : Trace) (mutations : Array Mutation) :
    t.pushChanges mutations = (mutations.toList.map TraceLine.change).foldl push t := by
  cases t with
  | collected lines =>
    rw [foldl_push_collected, pushChanges_collected, ← Array.toList_map, Array.toArray_toList]
  | discarded => rw [foldl_push_discarded, pushChanges]

end Trace

end Mac1
