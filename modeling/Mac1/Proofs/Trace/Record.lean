import Mac1.Execution
import Mac1.Proofs.Trace.Captions
import Mac1.Proofs.Trace.Replay

/-! A trace records its run. A reader who has nothing but the start, the captions of the program and the lines of
    the trace finds the registers and the memory at the end, however the run ends. -/

namespace Mac1

theorem Word.ofNat_succ {w : Word} {n : Nat} (h : w.toInt = n) : Int64.ofNat (n + 1) = w + 1 := by
  rw [← Int64.ofInt_toInt w, h, Int64.ofInt_eq_ofNat, Int64.ofNat_add]
  rfl

namespace Program
variable {p : Program} {s : Snapshot}

/-- Follows one line of a trace. An indented line is an assignment; any other is a caption, after whose instruction
    the next one stands. -/
def replayLine (p : Program) (s : Snapshot) (line : String) : Option Snapshot :=
  match Mutation.after? "    ".toList line.toList with
  | some cs => (Mutation.read (String.ofList cs)).bind s.perform
  | none => (p.captions.idxOf? line).map fun index => { s with pc := Int64.ofNat (index + 1) }

/-- Follows the lines of a trace. -/
def replay (p : Program) (s : Snapshot) (lines : List String) : Option Snapshot := lines.foldlM p.replayLine s

theorem replay_append {s' : Snapshot} {first second : List String} (h : p.replay s first = some s') :
    p.replay s (first ++ second) = p.replay s' second := foldlM_append_of_eq_some h

theorem replay_singleton {line : String} : p.replay s [line] = p.replayLine s line := foldlM_singleton

theorem replayLine_change (entry : Mutation) : p.replayLine s (TraceLine.change entry).render = s.perform entry := by
  have htext : (TraceLine.change entry).render.toList = "    ".toList ++ entry.render.toList := by
    rw [TraceLine.render, String.toList_append]
  rw [replayLine, htext, Mutation.after?_append]
  dsimp only
  rw [String.ofList_toList, Mutation.read_render, Option.bind_some]

theorem replay_changes (entries : List Mutation) :
    p.replay s (entries.map fun entry => (TraceLine.change entry).render) = s.replay entries := by
  rw [replay, Snapshot.replay, List.foldlM_map]
  simp only [replayLine_change]

/-- The caption of an instruction is told from the others, and from the assignments. -/
theorem Legible.replayLine_caption (h : p.Legible) {index : Nat} {i : Instruction}
    (hi : p.instructions[index]? = some i) :
    p.replayLine s i.caption = some { s with pc := Int64.ofNat (index + 1) } := by
  have hcaption : p.captions[index]? = some i.caption := by
    rw [captions, List.getElem?_map, Array.getElem?_toList, hi, Option.map_some]
  obtain ⟨hlt, hget⟩ := List.getElem?_eq_some_iff.mp hcaption
  have hindex : p.captions.idxOf? i.caption = some index := by
    refine List.idxOf?_eq_some_iff.mpr ⟨hlt, hget, fun j hj hsame => ?_⟩
    have := (List.Nodup.getElem_inj_iff h.distinct).mp (hsame.trans hget.symm)
    omega
  have hindented : Mutation.after? "    ".toList i.caption.toList = none := by
    have hfirst := h.unindented i.caption (List.mem_of_getElem? hcaption)
    cases htext : i.caption.toList with
    | nil => rfl
    | cons c cs =>
      rw [htext] at hfirst
      exact if_neg fun hspace => hfirst (congrArg some hspace.symm)
  rw [replayLine, hindented, hindex, Option.map_some]

theorem next?_eq_some_iff {m : Machine} {index : Nat} {i : Instruction} : p.next? m = some (index, i) ↔
    m.halted = false ∧ Word.index? p.size m.pc = some index ∧ p.instructions[index]? = some i := by
  unfold next?
  cases m.halted with
  | true => simp
  | false => simp [Option.bind_eq_some_iff, Option.map_eq_some_iff]

end Program

/-! ### Steps -/

/-- The second execution comes from the first, and the lines that the trace got in between record what changed. -/
structure Records (p : Program) (e e' : Execution) : Prop where
  trace : ∀ lines, e.trace = .collected lines → ∃ sent, e'.trace = .collected (lines ++ sent) ∧
    p.replay e.machine.snapshot (sent.toList.map TraceLine.render) = some e'.machine.snapshot
  log : e'.machine.log = #[]
  size : e'.machine.memory.size = e.machine.memory.size
  inside : e'.machine.StackInside

namespace Records
variable {p : Program} {e e' e'' : Execution}

theorem refl (hlog : e.machine.log = #[]) (h : e.machine.StackInside) : Records p e e :=
  ⟨fun lines ht => ⟨#[], by rw [ht, Array.append_empty], rfl⟩, hlog, rfl, h⟩

theorem trans (h : Records p e e') (h' : Records p e' e'') : Records p e e'' := by
  refine ⟨fun lines ht => ?_, h'.log, h'.size.trans h.size, h'.inside⟩
  obtain ⟨sent, hsent, hreplay⟩ := h.trace lines ht
  obtain ⟨sent', hsent', hreplay'⟩ := h'.trace _ hsent
  refine ⟨sent ++ sent', ?_, ?_⟩
  · rw [hsent', Array.append_assoc]
  · rw [Array.toList_append, List.map_append, Program.replay_append hreplay, hreplay']

/-- When an instruction is taken up, its caption goes to the trace and the program counter moves on. -/
theorem of_caption (hp : p.Legible) (hlog : e.machine.log = #[]) (h : e.machine.StackInside) {index : Nat}
    {i : Instruction} (hnext : p.next? e.machine = some (index, i)) :
    Records p e ⟨{ e.machine with pc := e.machine.pc + 1 }, e.count, e.trace.push (.caption i.caption)⟩ := by
  obtain ⟨-, hindex, hi⟩ := Program.next?_eq_some_iff.mp hnext
  refine ⟨fun lines ht => ⟨#[.caption i.caption], by rw [ht]; rfl, ?_⟩, hlog, rfl, h⟩
  have hpc : Int64.ofNat (index + 1) = e.machine.pc + 1 := Word.ofNat_succ (Word.index?_eq_some_iff.mp hindex).1
  have hline := hp.replayLine_caption (s := e.machine.snapshot) hi
  rw [hpc] at hline
  exact Program.replay_singleton.trans hline

/-- The log that an instruction leaves goes to the trace, whatever else becomes of the machine. -/
theorem of_pushChanges {m m' m'' : Machine} {count count' : UInt64} {trace : Trace} (hlog : m.log = #[])
    (h : m.Follows m') (hsame : m''.snapshot = m'.snapshot) (hclear : m''.log = #[]) :
    Records p ⟨m, count, trace⟩ ⟨m'', count', trace.pushChanges m'.log⟩ := by
  obtain ⟨entries, hentries, hreplay⟩ := h.log
  rw [hlog, Array.empty_append] at hentries
  have hmemory : m''.memory = m'.memory := congrArg Snapshot.memory hsame
  have hsp : m''.sp = m'.sp := congrArg Snapshot.sp hsame
  refine ⟨?_, hclear, (congrArg Memory.size hmemory).trans h.size, ?_⟩
  · rintro lines rfl
    refine ⟨entries.map .change, by rw [hentries, Trace.pushChanges_collected], ?_⟩
    rw [Array.toList_map, List.map_map]
    exact (Program.replay_changes entries.toList).trans (hreplay.trans (congrArg some hsame.symm))
  · have hinside : m'.sp < m'.memory.size := h.inside
    rw [Machine.StackInside, hmemory, hsp]
    exact hinside

theorem of_settle {m : Machine} {f : Machine.MicroOp Unit} {Q : Unit → Machine → Prop} (hlog : m.log = #[])
    (h : Machine.MicroOp.Runs f m Q) (index : Nat) (caption : String) (count : UInt64) (trace : Trace) :
    Records p ⟨m, count, trace⟩ (Execution.settle index caption count trace (f m)).2 := by
  unfold Machine.MicroOp.Runs at h
  cases hf : f m with
  | ok _ m' =>
    rw [hf] at h
    exact of_pushChanges hlog h.1 rfl rfl
  | error fault m' =>
    rw [hf] at h
    exact of_pushChanges hlog h rfl rfl

theorem of_step (hp : p.Legible) (hlog : e.machine.log = #[]) (h : e.machine.StackInside)
    (hsize : e.machine.memory.size < 2 ^ 60) : Records p e (e.step p).2 := by
  rw [Execution.step]
  cases hnext : p.next? e.machine with
  | none => exact refl hlog h
  | some found =>
    obtain ⟨index, i⟩ := found
    have hcaption := of_caption hp hlog h hnext
    dsimp only
    cases heffect : i.effect with
    | apply op x =>
      have hruns := Machine.runs_apply hcaption.inside hsize op x
      exact hcaption.trans (of_settle hcaption.log hruns _ _ _ _)
    | store address value =>
      have hruns := Machine.runs_storeInitial hcaption.inside address value
      exact hcaption.trans (of_settle hcaption.log hruns _ _ _ _)
    | halt => exact ⟨hcaption.trace, hcaption.log, hcaption.size, hcaption.inside⟩

/-- Every batch is recorded, whether it ends at its limit, at the end of the run or with a fault. -/
theorem of_batch (hp : p.Legible) (hlog : e.machine.log = #[]) (h : e.machine.StackInside)
    (hsize : e.machine.memory.size < 2 ^ 60) (limit : Nat) : Records p e (e.batch p limit).2 := by
  induction limit generalizing e with
  | zero => exact refl hlog h
  | succ limit ih =>
    have hstep := of_step hp hlog h hsize
    rw [Execution.batch]
    cases hresult : e.step p with
    | mk progress e' =>
      rw [hresult] at hstep
      cases progress with
      | running => exact hstep.trans (ih hstep.log hstep.inside (hstep.size ▸ hsize))
      | «over» => exact hstep
      | failed error => exact hstep

end Records

/-! ### The record of a run -/

/-- The entries that an operation adds to the log turn the machine before into the machine after, and the lines
    that a batch of an assembled program adds to the trace do the same for a run. -/
theorem Execution.trace_faithful :
    (∀ (m m' : Machine) (op : Opcode) (x : Word), m.StackInside → m.memory.size < 2 ^ 60 →
      m.apply op x = .ok () m' → ∃ lines, m'.logLines = m.logLines ++ lines ∧
        m.snapshot.replayLines lines = some m'.snapshot) ∧
    ∀ (target : Target) (texts : List String) (p : Program), target.assemble texts = .ok p →
      p.captions.Nodup ∧ (∀ caption ∈ p.captions, caption.toList.head? ≠ some ' ') ∧
      ∀ (e : Execution) (lines : Array TraceLine) (limit : Nat), e.trace = .collected lines → e.machine.log = #[] →
        e.machine.StackInside → e.machine.memory.size < 2 ^ 60 →
        ∃ sent, (e.batch p limit).2.trace = .collected (lines ++ sent) ∧
          p.replay e.machine.snapshot (sent.toList.map TraceLine.render) = some (e.batch p limit).2.machine.snapshot ∧
          (e.batch p limit).2.machine.log = #[] := by
  refine ⟨fun m m' op x h hsize happly => ?_, fun target texts p hp => ?_⟩
  · have hruns := Machine.runs_apply h hsize op x
    unfold Machine.MicroOp.Runs at hruns
    rw [happly] at hruns
    obtain ⟨entries, hlog, hreplay⟩ := hruns.1.log
    refine ⟨entries.toList.map Mutation.render, ?_, (Snapshot.replayLines_render _ _).trans hreplay⟩
    rw [Machine.logLines, hlog, Array.toList_append, List.map_append, Machine.logLines]
  · obtain ⟨source, hreads, -, hemitted⟩ := Target.assemble_eq_ok_iff.mp hp
    have hlegible := hemitted.legible hreads
    refine ⟨hlegible.distinct, hlegible.unindented, fun e lines limit htrace hlog h hsize => ?_⟩
    have hrecords := Records.of_batch hlegible hlog h hsize limit
    obtain ⟨sent, hsent, hreplay⟩ := hrecords.trace lines htrace
    exact ⟨sent, hsent, hreplay, hrecords.log⟩

/-- A push is recorded on its own, and in a loop that fills the stack. -/
theorem Execution.trace_faithful_push :
    (∃ m' lines, Machine.apply .push 0 { ac := 7, memory := ⟨#[0, 0]⟩ } = .ok () m' ∧ m'.logLines = lines ∧
      Snapshot.replayLines ⟨7, 0, 0, ⟨#[0, 0]⟩⟩ lines = some m'.snapshot) ∧
    ∃ p sent, Target.assemble {} ["loop: PUSH", "JUMP loop"] = .ok p ∧
      (Execution.batch p 9 ⟨{ ac := 7, memory := ⟨#[0, 0]⟩ }, 0, .collected #[]⟩).2.trace = .collected sent ∧
      p.replay ⟨7, 0, 0, ⟨#[0, 0]⟩⟩ (sent.toList.map TraceLine.render) =
        some (Execution.batch p 9 ⟨{ ac := 7, memory := ⟨#[0, 0]⟩ }, 0, .collected #[]⟩).2.machine.snapshot := by
  constructor
  · obtain ⟨lines, hlines, hreplay⟩ := trace_faithful.1 { ac := 7, memory := ⟨#[0, 0]⟩ } _ .push 0
      Nat.zero_lt_two (by decide) rfl
    exact ⟨_, lines, rfl, hlines, hreplay⟩
  · have hok : (Target.assemble {} ["loop: PUSH", "JUMP loop"]).toOption.isSome = true := by decide +kernel
    cases hp : Target.assemble {} ["loop: PUSH", "JUMP loop"] with
    | error e => rw [hp] at hok; cases hok
    | ok p =>
      obtain ⟨sent, hsent, hreplay, -⟩ := (trace_faithful.2 {} ["loop: PUSH", "JUMP loop"] p hp).2.2
        ⟨{ ac := 7, memory := ⟨#[0, 0]⟩ }, 0, .collected #[]⟩ #[] 9 rfl rfl Nat.zero_lt_two (by decide)
      rw [Array.empty_append] at hsent
      exact ⟨p, sent, rfl, hsent, hreplay⟩

end Mac1
