import Mac1.Proofs.Assembly.Acceptance

/-! Where labels point. The pass over the declarations counts the commands on its own and adds the number of initial
    values; the pass over the commands numbers what it emits. Both come to the same index for every line, so
    a label stands for the instruction of the first command from its line on. -/

namespace Mac1

open SourceLine

/-- What it takes for `index` to be that of the label which the line at position `n` declares: the table holds it,
    it is that of the first command from the line on, and it is what the commands that name the label are
    given. -/
structure PointsTo (lines : List SourceLine) (p : Program) (n : Nat) (l : SourceLine) (name : String)
    (index : Nat) : Prop where
  found : p.symbols.label? name = some ⟨name, index, l.number⟩
  counted : index = SymbolTable.initialCount lines + (lines.take n).countP hasCommand
  afterInitial : SymbolTable.initialCount lines ≤ index
  inside : index ≤ p.size
  next : ∀ n' l', lines[n']? = some l' → n ≤ n' → l'.hasCommand = true →
    (∀ m b, lines[m]? = some b → n ≤ m → m < n' → b.hasCommand = false) →
    ∃ i, p.instructions[index]? = some i ∧ i.line = some l'.number
  atEnd : (∀ m b, lines[m]? = some b → n ≤ m → b.hasCommand = false) → index = p.size
  captioned : l.hasCommand = true → ∃ i, p.instructions[index]? = some i ∧
    (name ++ "(=" ++ Decimal.render index ++ "): ").toList <+: i.caption.toList
  carried : ∀ (j : Nat) (i : Instruction) (op : Opcode) (x : Word), p.instructions[j]? = some i →
    i.effect = .apply op x → op.parameterKind = .label → ∀ l' ∈ lines, i.line = some l'.number → ∀ code,
    l'.statement = .code code → code.parameter = some name → x = Int64.ofNat index

theorem SourceLine.Reads.eq_of_number {texts : List String} {lines : List SourceLine} (h : Reads texts lines)
    {l l' : SourceLine} (hl : l ∈ lines) (hl' : l' ∈ lines) (hnumber : l.number = l'.number) : l = l' := by
  obtain ⟨n, hn⟩ := List.mem_iff_getElem?.mp hl
  obtain ⟨n', hn'⟩ := List.mem_iff_getElem?.mp hl'
  have hsame : n = n' := by
    have := h.numbers n l hn
    have := h.numbers n' l' hn'
    omega
  subst hsame
  exact Option.some.inj (hn.symm.trans hn')

theorem IsInstruction.caption_of_label {means : String → Option String → Effect → String → Prop} {first n : Nat}
    {lines : List SourceLine} {l : SourceLine} {i : Instruction} (h : IsInstruction means first lines n l i)
    {name : String} (hname : l.label? = some name) :
    (name ++ "(=" ++ Decimal.render (instructionIndex first lines n) ++ "): ").toList <+: i.caption.toList := by
  obtain ⟨code, command, effect, mnemonic, hcode, -, -, rfl⟩ := h
  have hlabel : code.label = some name := by
    rw [label?, hcode] at hname
    exact hname
  rw [hlabel, Instruction.heading]
  exact ⟨_, by rw [← String.toList_append, ← String.append_assoc]⟩

theorem IsInstruction.line_eq {means : String → Option String → Effect → String → Prop} {first n : Nat}
    {lines : List SourceLine} {l : SourceLine} {i : Instruction} (h : IsInstruction means first lines n l i) :
    i.line = some l.number := by
  obtain ⟨code, command, effect, mnemonic, -, -, -, rfl⟩ := h
  rfl

namespace Emitted
variable {target : Target} {lines : List SourceLine} {p : Program}

theorem lt_initialCount_iff (h : Emitted target lines p) {j : Nat} {i : Instruction}
    (hi : p.instructions[j]? = some i) :
    j < SymbolTable.initialCount lines ↔ ∃ address value, i.effect = .store address value := by
  rcases h.initializer_or_command hi with ⟨hj, n, a, -, -, value, -, rfl⟩ | ⟨n, l, -, -, rfl, hinstruction⟩
  · exact iff_of_true hj ⟨_, _, rfl⟩
  · obtain ⟨code, command, effect, mnemonic, -, -, hmeans, rfl⟩ := hinstruction
    refine iff_of_false (Nat.not_lt.mpr (Nat.le_add_right _ _)) ?_
    rintro ⟨address, value, hstore⟩
    exact hmeans.ne_store address value hstore

/-- A command that takes a label is given the index that its label has. -/
theorem carried (h : Emitted target lines p) (hc : Consistent target.memorySize lines) {texts : List String}
    (hr : Reads texts lines) {n : Nat} {l : SourceLine} {name : String} (hl : lines[n]? = some l)
    (hname : l.label? = some name) {j : Nat} {i : Instruction} {op : Opcode} {x : Word}
    (hi : p.instructions[j]? = some i) (heffect : i.effect = .apply op x) (hkind : op.parameterKind = .label)
    {l' : SourceLine} (hl' : l' ∈ lines) (hline : i.line = some l'.number) {code : CodeLine}
    (hcode : l'.statement = .code code) (hparameter : code.parameter = some name) :
    x = Int64.ofNat (instructionIndex (SymbolTable.initialCount lines) lines n) := by
  rcases h.initializer_or_command hi with ⟨-, m, a, -, -, value, -, rfl⟩ | ⟨m, b, hb, -, -, hinstruction⟩
  · cases heffect
  · have hnumber : b.number = l'.number := Option.some.inj (hinstruction.line_eq.symm.trans hline)
    obtain rfl := hr.eq_of_number (List.mem_of_getElem? hb) hl' hnumber
    obtain ⟨code', command, effect, mnemonic, hcode', -, hmeans, rfl⟩ := hinstruction
    obtain rfl := Statement.code.inj (hcode.symm.trans hcode')
    obtain rfl : effect = .apply op x := heffect
    rw [hparameter] at hmeans
    cases hmeans with
    | applied hnames hdenotes =>
      rw [hkind] at hdenotes
      obtain ⟨m', b', hb', hname', rfl⟩ := denotes_label_iff.mp hdenotes
      -- the names are declared once, so both lines give the entry of the table
      have hentry := (h.symbols.label?_eq_some_iff hc).mpr ⟨n, l, hl, hname, rfl⟩
      have hentry' := (h.symbols.label?_eq_some_iff hc).mpr ⟨m', b', hb', hname', rfl⟩
      have hindex := congrArg Label.index (Option.some.inj (hentry'.symm.trans hentry))
      exact congrArg Int64.ofNat hindex

/-- A label points to the instruction of the first command from its line on. -/
theorem pointsTo (h : Emitted target lines p) (hc : Consistent target.memorySize lines) {texts : List String}
    (hr : Reads texts lines) {n : Nat} {l : SourceLine} {name : String} (hl : lines[n]? = some l)
    (hname : l.label? = some name) :
    PointsTo lines p n l name (instructionIndex (SymbolTable.initialCount lines) lines n) where
  found := (h.symbols.label?_eq_some_iff hc).mpr ⟨n, l, hl, hname, rfl⟩
  counted := rfl
  afterInitial := Nat.le_add_right _ _
  inside := by
    rw [h.size_eq, instructionIndex]
    exact Nat.add_le_add_left (countP_take_le n) _
  next n' l' hl' hle hcommand hbetween := by
    obtain ⟨i, hi, hinstruction⟩ := h.exists_instruction hl' hcommand
    rw [instructionIndex, ← countP_take_eq hle hbetween] at hi
    exact ⟨i, hi, hinstruction.line_eq⟩
  atEnd hnone := by rw [h.size_eq, instructionIndex, countP_take_eq_countP hnone]
  captioned hcommand := by
    obtain ⟨i, hi, hinstruction⟩ := h.exists_instruction hl hcommand
    exact ⟨i, hi, hinstruction.caption_of_label hname⟩
  carried j i op x hi heffect hkind l' hl' hline code hcode hparameter :=
    h.carried hc hr hl hname hi heffect hkind hl' hline hcode hparameter

end Emitted

/-- In a program that is assembled, each label points to the instruction of the first command from its line on, and
    never to one that sets an initial value, since these come before. -/
theorem Target.labels_point {target : Target} {texts : List String} {p : Program}
    (h : target.assemble texts = .ok p) :
    ∃ lines, Reads texts lines ∧
      (∀ j i, p.instructions[j]? = some i →
        (j < SymbolTable.initialCount lines ↔ ∃ address value, i.effect = .store address value)) ∧
      ∀ n l name, lines[n]? = some l → l.label? = some name → ∃ index, PointsTo lines p n l name index := by
  obtain ⟨lines, hreads, hwell, hemitted⟩ := assemble_eq_ok_iff.mp h
  refine ⟨lines, hreads, fun j i hi => hemitted.lt_initialCount_iff hi, fun n l name hl hname => ?_⟩
  exact ⟨_, hemitted.pointsTo hwell.toConsistent hreads hl hname⟩

/-- A loop that counts down, with initial values that are declared after their use. -/
def countdown : List String :=
  ["LODD count", "loop: JZER end", "SUBD step", "JUMP loop", "#alias count =3", "#alias step =1", "end:"]

/-- The two initial values come first, so the label on the last line points behind the sixth instruction. -/
theorem Target.labels_point_countdown : ∃ p lines l, Target.assemble {} countdown = .ok p ∧
    Reads countdown lines ∧ lines[6]? = some l ∧ PointsTo lines p 6 l "end" 6 := by
  have hok : (Target.assemble {} countdown).toOption.bind (·.symbols.label? "end") = some ⟨"end", 6, 7⟩ := by
    decide +kernel
  cases hp : Target.assemble {} countdown with
  | error e => rw [hp] at hok; cases hok
  | ok p =>
    rw [hp] at hok
    obtain ⟨lines, hreads, -, hpoints⟩ := Target.labels_point hp
    obtain ⟨l, hl, htext⟩ : ∃ l, lines[6]? = some l ∧ l.text = "end:" := by
      have htext : (lines.map (·.text))[6]? = some "end:" := by rw [hreads.texts]; rfl
      rwa [List.getElem?_map, Option.map_eq_some_iff] at htext
    obtain ⟨comment, hread⟩ := hreads.statements l (List.mem_of_getElem? hl)
    have hend : (Line.read "end:").toOption.map (·.statement) = some (.code { label := some "end" }) := by
      decide +kernel
    rw [← htext, hread] at hend
    have hstatement : l.statement = .code { label := some "end" } := Option.some.inj hend
    have hname : l.label? = some "end" := by rw [label?, hstatement]
    obtain ⟨index, hpoint⟩ := hpoints 6 l "end" hl hname
    obtain rfl : index = 6 := congrArg Label.index (Option.some.inj (hpoint.found.symm.trans hok))
    exact ⟨p, lines, l, rfl, hreads, hl, hpoint⟩

end Mac1
