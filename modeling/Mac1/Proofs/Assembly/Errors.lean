import Mac1.Proofs.Assembly.Acceptance

/-! Which error is reported, and on which line. Lines are read one after the other, so an error that is found then
    depends on the lines up to its own and on nothing after them. Only when all lines have been read are addresses
    allocated, and only when every alias has one are the commands resolved, again from the first line on. -/

namespace Mac1

open SourceLine

/-- The cause is one that is found while the lines are read. -/
def AssemblyError.Cause.IsEarly : AssemblyError.Cause → Prop
  | .line _ => True
  | .declaration .noFreeAddress => False
  | .declaration _ => True
  | .command _ => False
  | .parameter _ => False

namespace SourceLine

/-- The line is one of a text: it has a number, counted from 1, and says what can be read there. -/
def IsLine (texts : List String) (l : SourceLine) : Prop :=
  ∃ n comment, l.number = n + 1 ∧ texts[n]? = some l.text ∧ Line.read l.text = .ok ⟨l.statement, comment⟩

def aliasName? (l : SourceLine) : Option String := l.alias?.map (·.name)

/-- The line with a number declares a name again, where `name?` tells what a line declares. The line `first` is the one
    before it that declares the name. -/
structure Redeclares (texts : List String) (name? : SourceLine → Option String) (name : String)
    (first number : Nat) : Prop where
  earlier : first < number
  declared : ∃ l, IsLine texts l ∧ l.number = first ∧ name? l = some name
  only : ∀ l, IsLine texts l → l.number < number → name? l = some name → l.number = first
  again : ∃ l, IsLine texts l ∧ l.number = number ∧ name? l = some name

/-- The command of a line is refused when it is resolved against some symbols. -/
def Refused (target : Target) (symbols : SymbolTable) (l : SourceLine) (cause : AssemblyError.Cause) : Prop :=
  ∃ code command, l.statement = .code code ∧ code.command = some command ∧
    target.effect symbols command code.parameter = .error cause

/-! ### Reading -/

section Reading
variable {memorySize : Nat} {before lines : List SourceLine} {texts more : List String} {text : String}
  {e : AssemblyError}

theorem readAll_append : readAll memorySize before (texts ++ more) =
    match readAll memorySize before texts with
    | .ok lines => readAll memorySize lines more
    | .error e => .error e := by
  induction texts generalizing before with
  | nil => rfl
  | cons text texts ih =>
    rw [List.cons_append, readAll, readAll]
    cases readNext memorySize before text with
    | error e => rfl
    | ok l => exact ih

/-- Reading fails at the first line that is not accepted after the lines before it. -/
theorem exists_of_readAll_eq_error (h : readAll memorySize before texts = .error e) :
    ∃ read text rest lines, texts = read ++ text :: rest ∧ readAll memorySize before read = .ok lines ∧
      readNext memorySize lines text = .error e := by
  induction texts generalizing before with
  | nil => cases h
  | cons text texts ih =>
    rw [readAll] at h
    cases hnext : readNext memorySize before text with
    | error e' =>
      rw [hnext] at h
      cases h
      exact ⟨[], text, texts, before, rfl, rfl, hnext⟩
    | ok l =>
      rw [hnext] at h
      obtain ⟨read, text', rest, lines, htexts, hread, hfails⟩ := ih h
      refine ⟨text :: read, text', rest, lines, by rw [htexts, List.cons_append], ?_, hfails⟩
      rw [readAll, hnext]
      exact hread

theorem readAll_eq_error (hread : readAll memorySize [] texts = .ok lines)
    (hnext : readNext memorySize lines text = .error e) (rest : List String) :
    readAll memorySize [] (texts ++ text :: rest) = .error e := by
  rw [readAll_append, hread]
  dsimp only
  rw [readAll, hnext]

/-- A line that is not accepted cannot be read, or its declaration is refused. -/
theorem readNext_eq_error_iff : readNext memorySize before text = .error e ↔
    e.lineNumber = before.length + 1 ∧ e.text = text ∧
      ((∃ error, Line.read text = .error error ∧ e.cause = .line error) ∨
        ∃ line error, Line.read text = .ok line ∧ checkDeclaration memorySize before line.statement = .error error ∧
          e.cause = .declaration error) := by
  obtain ⟨cause, number, text'⟩ := e
  unfold readNext
  dsimp only
  cases hread : Line.read text with
  | error error => simp [eq_comm, and_left_comm, and_comm, and_assoc]
  | ok line =>
    cases hcheck : checkDeclaration memorySize before line.statement with
    | error error => simp [hcheck, eq_comm, and_left_comm, and_comm, and_assoc]
    | ok _ => simp [hcheck]

/-- What is wrong with a declaration that is refused. -/
theorem of_checkDeclaration_eq_error {statement : Statement} {error : DeclarationError}
    (h : checkDeclaration memorySize before statement = .error error) :
    (∃ code name first, statement = .code code ∧ code.label = some name ∧ labelLine? before name = some first ∧
      error = .labelRedefined name first) ∨
    ∃ d, statement = .alias d ∧
      (((∃ s ∈ SpecialAddress.all, s.name = d.name) ∧ error = .aliasRedefined d.name none) ∨
        (¬(∃ s ∈ SpecialAddress.all, s.name = d.name) ∧ ∃ first, aliasLine? before d.name = some first ∧
          error = .aliasRedefined d.name (some first)) ∨
        ∃ a, error = .aliasAddressOutOfRange a) := by
  cases statement with
  | empty => cases h
  | code code =>
    unfold checkDeclaration at h
    dsimp only at h
    cases hlabel : code.label with
    | none => simp [hlabel] at h
    | some name =>
      cases hfirst : labelLine? before name with
      | none => simp [hlabel, hfirst] at h
      | some first =>
        simp only [hlabel, hfirst, Except.error.injEq] at h
        exact .inl ⟨code, name, first, rfl, hlabel, hfirst, h.symm⟩
  | «alias» d =>
    refine .inr ⟨d, rfl, ?_⟩
    unfold checkDeclaration at h
    dsimp only at h
    by_cases hspecial : ∃ s ∈ SpecialAddress.all, s.name = d.name
    · have hany : SpecialAddress.all.any (·.name == d.name) = true := by simpa using hspecial
      simp only [hany, if_true, Except.error.injEq] at h
      exact .inl ⟨hspecial, h.symm⟩
    · have hany : ¬SpecialAddress.all.any (·.name == d.name) = true := by simpa using hspecial
      rw [if_neg hany] at h
      cases hfirst : aliasLine? before d.name with
      | some first =>
        simp only [hfirst, Except.error.injEq] at h
        exact .inr (.inl ⟨hspecial, first, rfl, h.symm⟩)
      | none =>
        rw [hfirst] at h
        dsimp only at h
        split at h
        · cases h
        · split at h <;> cases h
          exact .inr (.inr ⟨_, rfl⟩)

theorem isEarly_of_readNext (h : readNext memorySize before text = .error e) : e.cause.IsEarly := by
  obtain ⟨-, -, ⟨error, -, hcause⟩ | ⟨line, error, -, hcheck, hcause⟩⟩ := readNext_eq_error_iff.mp h
  · rw [hcause]
    trivial
  · rw [hcause]
    rcases of_checkDeclaration_eq_error hcheck with ⟨_, name, first, -, -, -, rfl⟩ |
      ⟨d, -, ⟨-, rfl⟩ | ⟨-, first, -, rfl⟩ | ⟨a, rfl⟩⟩ <;> trivial

end Reading

/-! ### Lines of a text -/

/-- Where no key occurs twice, the items that have it are one item. -/
theorem eq_of_nodup_filterMap {α β : Type} {f : α → Option β} {items : List α} (h : (items.filterMap f).Nodup)
    {a b : α} {k : β} (ha : a ∈ items) (hb : b ∈ items) (hfa : f a = some k) (hfb : f b = some k) : a = b := by
  induction items with
  | nil => cases ha
  | cons c items ih =>
    have hrest : (items.filterMap f).Nodup := h.sublist ((List.sublist_cons_self c items).filterMap f)
    have hfirst : ∀ d ∈ items, f c = some k → f d ≠ some k := by
      intro d hd hfc hfd
      rw [List.filterMap_cons, hfc] at h
      exact (List.nodup_cons.mp h).1 (List.mem_filterMap.mpr ⟨d, hd, hfd⟩)
    rcases List.mem_cons.mp ha with hac | ha' <;> rcases List.mem_cons.mp hb with hbc | hb'
    · rw [hac, hbc]
    · exact absurd hfb (hfirst b hb' (hac ▸ hfa))
    · exact absurd hfa (hfirst a ha' (hbc ▸ hfb))
    · exact ih hrest ha' hb'

section Lines
variable {memorySize : Nat} {texts : List String} {lines : List SourceLine} {l l' : SourceLine} {name : String}

theorem Reads.mem_iff (h : Reads texts lines) : l ∈ lines ↔ IsLine texts l := by
  constructor
  · intro hl
    obtain ⟨n, hn⟩ := List.mem_iff_getElem?.mp hl
    obtain ⟨comment, hread⟩ := h.statements l hl
    refine ⟨n, comment, h.numbers n l hn, ?_, hread⟩
    rw [← h.texts, List.getElem?_map, hn, Option.map_some]
  · rintro ⟨n, comment, hnumber, htext, hread⟩
    rw [← h.texts, List.getElem?_map, Option.map_eq_some_iff] at htext
    obtain ⟨l', hl', htext⟩ := htext
    obtain ⟨comment', hread'⟩ := h.statements l' (List.mem_of_getElem? hl')
    rw [htext, hread] at hread'
    have hstatement : l.statement = l'.statement := congrArg Line.statement (Except.ok.inj hread')
    have hnumber' := h.numbers n l' hl'
    have hsame : l' = l := by
      cases l
      cases l'
      simp_all only
    exact hsame ▸ List.mem_of_getElem? hl'

theorem Reads.length_eq (h : Reads texts lines) : lines.length = texts.length := by
  rw [← h.texts, List.length_map]

theorem IsLine.append (h : IsLine texts l) (more : List String) : IsLine (texts ++ more) l := by
  obtain ⟨n, comment, hnumber, htext, hread⟩ := h
  exact ⟨n, comment, hnumber, (List.getElem?_append_left (List.getElem?_eq_some_iff.mp htext).1).trans htext, hread⟩

theorem IsLine.of_append {more : List String} (h : IsLine (texts ++ more) l) (hnumber : l.number ≤ texts.length) :
    IsLine texts l := by
  obtain ⟨n, comment, hn, htext, hread⟩ := h
  rw [List.getElem?_append_left (by omega)] at htext
  exact ⟨n, comment, hn, htext, hread⟩

/-- Where names are declared once, a name is found on the line that declares it. -/
theorem redeclares_of_find? {name? : SourceLine → Option String} {first : Nat} {more : List String}
    (h : Reads texts lines) (hnodup : (lines.filterMap name?).Nodup)
    (hfind : (lines.find? (name? · == some name)).map (·.number) = some first)
    (hl : IsLine (texts ++ more) l) (hnumber : l.number = texts.length + 1) (hname : name? l = some name) :
    Redeclares (texts ++ more) name? name first l.number := by
  obtain ⟨l', hfound, rfl⟩ := Option.map_eq_some_iff.mp hfind
  have hmem := List.mem_of_find?_eq_some hfound
  have hname' : name? l' = some name := by simpa using List.find?_some hfound
  have hline := h.mem_iff.mp hmem
  refine ⟨?_, ⟨l', hline.append more, rfl, hname'⟩, fun b hb hlt hb' => ?_, ⟨l, hl, rfl, hname⟩⟩
  · obtain ⟨n, -, hn, htext, -⟩ := hline
    have := (List.getElem?_eq_some_iff.mp htext).1
    omega
  · have hb := h.mem_iff.mpr (hb.of_append (by omega))
    rw [eq_of_nodup_filterMap hnodup hb hmem hb' hname']

end Lines

end SourceLine

/-! ### The three passes -/

section Passes
variable {target : Target} {symbols : SymbolTable} {lines : List SourceLine} {texts : List String} {e : AssemblyError}

/-- The allocation fails on a line that declares an alias. -/
theorem SymbolTable.exists_of_allocate_eq_error {free : List Nat} (h : allocate free lines = .error e) :
    ∃ l ∈ lines, e = l.error (.declaration .noFreeAddress) := by
  induction lines generalizing free with
  | nil => cases h
  | cons l lines ih =>
    have later {free : List Nat} (h : allocate free lines = .error e) :
        ∃ l' ∈ l :: lines, e = l'.error (.declaration .noFreeAddress) := by
      obtain ⟨l', hl', he⟩ := ih h
      exact ⟨l', List.mem_cons_of_mem l hl', he⟩
    rw [allocate] at h
    split at h
    · exact later h
    · split at h
      · exact later (map_eq_error_iff.mp h)
      · exact later (map_eq_error_iff.mp h)
      · cases h
        exact ⟨l, List.mem_cons_self, rfl⟩

/-- The pass over the commands fails at the first one that is refused. -/
theorem Target.exists_of_instructionsFrom_eq_error {next : Nat}
    (h : target.instructionsFrom symbols next lines = .error e) :
    ∃ before l rest, lines = before ++ l :: rest ∧ Refused target symbols l e.cause ∧ e = l.error e.cause ∧
      ∀ l' ∈ before, ∀ cause, ¬Refused target symbols l' cause := by
  induction lines generalizing next with
  | nil => cases h
  | cons l lines ih =>
    have later (hl : ∀ cause, ¬Refused target symbols l cause) {next : Nat}
        (h : target.instructionsFrom symbols next lines = .error e) :
        ∃ before l' rest, l :: lines = before ++ l' :: rest ∧ Refused target symbols l' e.cause ∧
          e = l'.error e.cause ∧ ∀ l'' ∈ before, ∀ cause, ¬Refused target symbols l'' cause := by
      obtain ⟨before, l', rest, hlines, hrefused, he, hbefore⟩ := ih h
      refine ⟨l :: before, l', rest, by rw [hlines, List.cons_append], hrefused, he, fun l'' hl'' => ?_⟩
      rcases List.mem_cons.mp hl'' with rfl | hl''
      · exact hl
      · exact hbefore l'' hl''
    rw [instructionsFrom] at h
    split at h
    · next label command parameter hstatement =>
      cases heffect : target.effect symbols command parameter with
      | error cause =>
        rw [heffect] at h
        cases h
        exact ⟨[], l, lines, rfl, ⟨_, command, hstatement, rfl, heffect⟩, rfl, fun l' hl' => absurd hl' List.not_mem_nil⟩
      | ok found =>
        rw [heffect] at h
        refine later ?_ (map_eq_error_iff.mp h)
        rintro cause ⟨code, command', hcode, hcommand, hfails⟩
        obtain rfl := Statement.code.inj (hstatement.symm.trans hcode)
        cases hcommand
        rw [heffect] at hfails
        cases hfails
    · next hstatement =>
      refine later ?_ h
      rintro cause ⟨⟨label, command, parameter⟩, command', hcode, hcommand, -⟩
      obtain rfl : command = some command' := hcommand
      exact hstatement _ _ _ hcode

theorem Target.assemble_eq_error_iff_passes : target.assemble texts = .error e ↔
    readAll target.memorySize [] texts = .error e ∨ ∃ lines, readAll target.memorySize [] texts = .ok lines ∧
      (SymbolTable.ofLines target.memorySize lines = .error e ∨
        ∃ symbols, SymbolTable.ofLines target.memorySize lines = .ok symbols ∧
          target.instructionsFrom symbols (initializersFrom 0 symbols.aliases).length lines = .error e) := by
  unfold assemble
  rw [bind_eq_error_iff]
  refine or_congr_right (exists_congr fun lines => and_congr_right fun _ => ?_)
  rw [bind_eq_error_iff]
  refine or_congr_right (exists_congr fun symbols => and_congr_right fun _ => ?_)
  rw [bind_eq_error_iff]
  simp [pure, Except.pure]

/-- A command is refused itself if it is not known, and else because of its parameter. -/
theorem Target.command_iff_of_effect_eq_error {command : String} {parameter : Option String}
    {cause : AssemblyError.Cause} (h : target.effect symbols command parameter = .error cause) :
    (∃ error, cause = .command error) ↔ ¬target.Known command parameter := by
  unfold effect at h
  split at h
  · next hhalt =>
    -- `END` names no operation, so with a parameter it is not known
    cases parameter with
    | none => cases h
    | some token =>
      cases h
      refine iff_of_true ⟨_, rfl⟩ ?_
      rintro (⟨-, hnone⟩ | ⟨op, hnames, -⟩)
      · cases hnone
      · exact hnames.not_halt hhalt
  · next hhalt =>
    cases hfind : target.instructionSet.find command parameter.isSome with
    | error error =>
      rw [hfind] at h
      cases h
      refine iff_of_true ⟨_, rfl⟩ ?_
      rintro (⟨hhalt', -⟩ | ⟨op, hnames, hkind⟩)
      · exact hhalt hhalt'
      · have hrequired : op.parameterKind.isRequired = parameter.isSome := by
          rw [Bool.eq_iff_iff, hkind, ParameterKind.isRequired, bne_iff_ne]
        rw [InstructionSet.find_eq_ok_iff.mpr ⟨hnames, hrequired⟩] at hfind
        cases hfind
    | ok op =>
      obtain ⟨hnames, hrequired⟩ := InstructionSet.find_eq_ok_iff.mp hfind
      have hknown : target.Known command parameter :=
        .inr ⟨op, hnames, by rw [← hrequired, ParameterKind.isRequired, bne_iff_ne]⟩
      rw [hfind] at h
      cases parameter with
      | none => cases h
      | some token =>
        dsimp only at h
        split at h <;> cases h
        refine iff_of_false ?_ (not_not_intro hknown)
        rintro ⟨error, herror⟩
        cases herror

/-- What refuses a command is its name or its parameter. -/
theorem Target.of_effect_eq_error {command : String} {parameter : Option String} {cause : AssemblyError.Cause}
    (h : target.effect symbols command parameter = .error cause) :
    ¬cause.IsEarly ∧ cause ≠ .declaration .noFreeAddress := by
  unfold effect at h
  split at h
  · split at h <;> cases h
    exact ⟨id, nofun⟩
  · split at h
    · cases h
      exact ⟨id, nofun⟩
    · split at h
      · cases h
      · split at h <;> cases h
        exact ⟨id, nofun⟩

end Passes

/-! ### The error of a program -/

/-- The error names a line of the text and holds what it says. -/
structure Quotes (texts : List String) (e : AssemblyError) : Prop where
  positive : 1 ≤ e.lineNumber
  bounded : e.lineNumber ≤ texts.length
  text : texts[e.lineNumber - 1]? = some e.text

/-- An error that is found while the lines are read. It is that of the lines up to its own, whatever comes after
    them, and without its own line there is no such error. A name that is declared again was declared on the line
    that the error tells, unless it is the name of a special address, which no line declares. -/
structure FoundReading (target : Target) (texts : List String) (e : AssemblyError) : Prop where
  cut : target.assemble (texts.take e.lineNumber) = .error e
  before : ∀ e', target.assemble (texts.take (e.lineNumber - 1)) = .error e' → ¬e'.cause.IsEarly
  after : ∀ rest, target.assemble (texts.take e.lineNumber ++ rest) = .error e
  label : ∀ name first, e.cause = .declaration (.labelRedefined name first) →
    Redeclares texts (·.label?) name first e.lineNumber
  «alias» : ∀ name first, e.cause = .declaration (.aliasRedefined name (some first)) →
    Redeclares texts aliasName? name first e.lineNumber
  special : ∀ name first?, e.cause = .declaration (.aliasRedefined name first?) →
    (first? = none ↔ ∃ s ∈ SpecialAddress.all, s.name = name)

/-- An error that is found while the commands are resolved against the symbols of the whole program. All lines have
    been read and all aliases have an address. The line of the error is the first one whose command is refused; if the
    command is not known, its parameter is not looked at. -/
structure FoundResolving (target : Target) (texts : List String) (e : AssemblyError) (lines : List SourceLine)
    (symbols : SymbolTable) (l : SourceLine) : Prop where
  read : readAll target.memorySize [] texts = .ok lines
  tabulated : SymbolTable.ofLines target.memorySize lines = .ok symbols
  mem : l ∈ lines
  number : l.number = e.lineNumber
  refused : Refused target symbols l e.cause
  first : ∀ l' ∈ lines, l'.number < e.lineNumber → ∀ cause, ¬Refused target symbols l' cause
  command : ∀ code command, l.statement = .code code → code.command = some command →
    ((∃ error, e.cause = .command error) ↔ ¬target.Known command code.parameter)

section Found
variable {target : Target} {symbols : SymbolTable} {lines : List SourceLine} {texts read rest : List String}
  {text : String} {e : AssemblyError}

/-- A declaration that is refused stands on the line behind those that are read. -/
theorem SourceLine.exists_isLine_of_readNext {error : DeclarationError} (hreads : Reads read lines)
    (hnext : readNext target.memorySize lines text = .error e) (hcause : e.cause = .declaration error)
    (rest : List String) : ∃ l, IsLine (read ++ text :: rest) l ∧ l.number = read.length + 1 ∧ l.number = e.lineNumber ∧
      checkDeclaration target.memorySize lines l.statement = .error error := by
  obtain ⟨hnumber, -, ⟨error', -, hcause'⟩ | ⟨line, error', hread, hcheck, hcause'⟩⟩ := readNext_eq_error_iff.mp hnext
  · cases hcause.symm.trans hcause'
  · cases hcause.symm.trans hcause'
    rw [hreads.length_eq] at hnumber
    exact ⟨⟨read.length + 1, text, line.statement⟩, ⟨read.length, line.comment, rfl, by simp, hread⟩, rfl,
      hnumber.symm, hcheck⟩

theorem Target.not_isEarly_of_assemble_eq_error (hread : readAll target.memorySize [] texts = .ok lines)
    (h : target.assemble texts = .error e) : ¬e.cause.IsEarly := by
  rcases assemble_eq_error_iff_passes.mp h with hfails | ⟨lines', -, hsymbols | ⟨symbols, -, hcommands⟩⟩
  · rw [hread] at hfails
    cases hfails
  · obtain ⟨l, -, rfl⟩ := SymbolTable.exists_of_allocate_eq_error (map_eq_error_iff.mp hsymbols)
    exact id
  · obtain ⟨-, l, -, -, ⟨code, command, -, -, heffect⟩, -⟩ := exists_of_instructionsFrom_eq_error hcommands
    exact (of_effect_eq_error heffect).1

theorem Target.foundReading (hread : readAll target.memorySize [] read = .ok lines)
    (hnext : readNext target.memorySize lines text = .error e) : FoundReading target (read ++ text :: rest) e := by
  obtain ⟨hreads, hc⟩ := readAll_eq_ok_iff.mp hread
  have hnumber : e.lineNumber = read.length + 1 := by
    rw [(readNext_eq_error_iff.mp hnext).1, hreads.length_eq]
  have htake : (read ++ text :: rest).take e.lineNumber = read ++ [text] := by
    simp [hnumber, List.take_append, List.take_of_length_le]
  have htake' : (read ++ text :: rest).take (e.lineNumber - 1) = read := by simp [hnumber]
  have hfails : ∀ more, target.assemble (read ++ text :: more) = .error e := fun more =>
    assemble_eq_error_iff_passes.mpr (.inl (readAll_eq_error hread hnext more))
  have declaration {error : DeclarationError} (hcause : e.cause = .declaration error) :=
    exists_isLine_of_readNext hreads hnext hcause rest
  refine ⟨?_, ?_, ?_, ?_, ?_, ?_⟩
  · rw [htake]
    exact hfails []
  · -- the lines before were all read, so what is wrong with them is found later
    intro e' he'
    rw [htake'] at he'
    exact not_isEarly_of_assemble_eq_error hread he'
  · intro more
    rw [htake, List.append_assoc]
    exact hfails more
  · intro name first hcause
    obtain ⟨l, hl, hlength, hline, hcheck⟩ := declaration hcause
    rcases of_checkDeclaration_eq_error hcheck with ⟨code, name', first', hcode, hlabel, hfirst, herror⟩ |
      ⟨d, -, ⟨-, herror⟩ | ⟨-, _, -, herror⟩ | ⟨a, herror⟩⟩ <;> cases herror
    rw [← hline]
    exact redeclares_of_find? hreads hc.labels hfirst hl hlength (by rw [label?, hcode]; exact hlabel)
  · intro name first hcause
    obtain ⟨l, hl, hlength, hline, hcheck⟩ := declaration hcause
    rcases of_checkDeclaration_eq_error hcheck with ⟨_, _, _, -, -, -, herror⟩ |
      ⟨d, hd, ⟨-, herror⟩ | ⟨-, first', hfirst, herror⟩ | ⟨a, herror⟩⟩ <;> cases herror
    have hnodup : (lines.filterMap aliasName?).Nodup := by
      rw [show lines.filterMap aliasName? = (aliases lines).map (·.name) from List.map_filterMap.symm]
      exact hc.names
    rw [← hline]
    exact redeclares_of_find? hreads hnodup hfirst hl hlength (by rw [aliasName?, alias?, hd, Option.map_some])
  · intro name first? hcause
    obtain ⟨l, -, -, -, hcheck⟩ := declaration hcause
    rcases of_checkDeclaration_eq_error hcheck with ⟨_, _, _, -, -, -, herror⟩ |
      ⟨d, -, ⟨hspecial, herror⟩ | ⟨hspecial, first', -, herror⟩ | ⟨a, herror⟩⟩ <;> cases herror
    · exact iff_of_true rfl hspecial
    · exact iff_of_false nofun hspecial

theorem Target.foundResolving (hread : readAll target.memorySize [] texts = .ok lines)
    (hsymbols : SymbolTable.ofLines target.memorySize lines = .ok symbols) {next : Nat}
    (h : target.instructionsFrom symbols next lines = .error e) :
    ∃ l, e = l.error e.cause ∧ FoundResolving target texts e lines symbols l := by
  obtain ⟨before, l, rest, hlines, hrefused, he, hbefore⟩ := exists_of_instructionsFrom_eq_error h
  obtain ⟨hreads, -⟩ := readAll_eq_ok_iff.mp hread
  have hnumber : l.number = e.lineNumber := (congrArg AssemblyError.lineNumber he).symm
  refine ⟨l, he, hread, hsymbols, by simp [hlines], hnumber, hrefused, ?_, ?_⟩
  · intro l' hl' hlt
    obtain ⟨n, hn⟩ := List.mem_iff_getElem?.mp hl'
    have hn' := hreads.numbers n l' hn
    have hl := hreads.numbers before.length l (by simp [hlines])
    have hmem : l' ∈ before := by
      rw [hlines, List.getElem?_append_left (by omega)] at hn
      exact List.mem_of_getElem? hn
    exact hbefore l' hmem
  · intro code command hcode hcommand
    obtain ⟨code', command', hcode', hcommand', heffect⟩ := hrefused
    obtain rfl := Statement.code.inj (hcode.symm.trans hcode')
    obtain rfl := Option.some.inj (hcommand.symm.trans hcommand')
    exact command_iff_of_effect_eq_error heffect

theorem Quotes.of_getElem? {n : Nat} (hnumber : e.lineNumber = n + 1) (htext : texts[n]? = some e.text) :
    Quotes texts e := by
  have := (List.getElem?_eq_some_iff.mp htext).1
  exact ⟨by omega, by omega, by rw [hnumber]; exact htext⟩

theorem SourceLine.Reads.quotes (h : Reads texts lines) {l : SourceLine} (hl : l ∈ lines)
    (cause : AssemblyError.Cause) : Quotes texts (l.error cause) := by
  obtain ⟨n, -, hnumber, htext, -⟩ := h.mem_iff.mp hl
  exact .of_getElem? hnumber htext

end Found

/-- An error names a line of the program and quotes its text. The errors of reading come first, and among them that of
    the first line; the aliases without an address come next, and the commands last, again in the order of the lines. -/
theorem Target.errors_attributed {target : Target} {texts : List String} {e : AssemblyError}
    (h : target.assemble texts = .error e) :
    Quotes texts e ∧
      (e.cause.IsEarly → FoundReading target texts e) ∧
      (e.cause = .declaration .noFreeAddress → ∃ lines, Reads texts lines ∧ Consistent target.memorySize lines) ∧
      (¬e.cause.IsEarly → e.cause ≠ .declaration .noFreeAddress →
        ∃ lines symbols l, FoundResolving target texts e lines symbols l) := by
  rcases assemble_eq_error_iff_passes.mp h with hfails | ⟨lines, hread, hlater⟩
  · -- reading fails, on the line behind those that are read
    obtain ⟨read, text, rest, lines, rfl, hread, hnext⟩ := exists_of_readAll_eq_error hfails
    have hearly := isEarly_of_readNext hnext
    obtain ⟨hnumber, htext, -⟩ := readNext_eq_error_iff.mp hnext
    rw [(readAll_eq_ok_iff.mp hread).1.length_eq] at hnumber
    refine ⟨.of_getElem? hnumber (by simp [htext]), fun _ => foundReading hread hnext, fun hcause => ?_,
      fun hlate => absurd hearly hlate⟩
    rw [hcause] at hearly
    exact hearly.elim
  · have hlate := not_isEarly_of_assemble_eq_error hread h
    have hlines := readAll_eq_ok_iff.mp hread
    rcases hlater with hsymbols | ⟨symbols, hsymbols, hcommands⟩
    · obtain ⟨l, hl, rfl⟩ := SymbolTable.exists_of_allocate_eq_error (map_eq_error_iff.mp hsymbols)
      exact ⟨hlines.1.quotes hl _, fun hearly => absurd hearly hlate, fun _ => ⟨lines, hlines⟩,
        fun _ hcause => absurd rfl hcause⟩
    · obtain ⟨l, he, hfound⟩ := foundResolving hread hsymbols hcommands
      refine ⟨?_, fun hearly => absurd hearly hlate, fun _ => ⟨lines, hlines⟩, fun _ _ => ⟨lines, symbols, l, hfound⟩⟩
      rw [he]
      exact hlines.1.quotes hfound.mem _

/-- A program that declares a label twice, and has a line that cannot be read after that. -/
def redefined : List String := ["x: LOCO 1", "x: LOCO 2", "LOCO 1 2 3"]

/-- The second label is refused, since it comes before the line that cannot be read. -/
theorem Target.errors_attributed_redefined : ∃ e, Target.assemble {} redefined = .error e ∧
    e.cause = .declaration (.labelRedefined "x" 1) ∧ e.lineNumber = 2 ∧ FoundReading {} redefined e ∧
    Redeclares redefined (·.label?) "x" 1 2 := by
  have herror : (match Target.assemble {} redefined with | .error e => some e | .ok _ => none) =
      some ⟨.declaration (.labelRedefined "x" 1), 2, "x: LOCO 2"⟩ := by
    decide +kernel
  cases h : Target.assemble {} redefined with
  | ok p => rw [h] at herror; cases herror
  | error e =>
    rw [h] at herror
    cases herror
    have hfound := (Target.errors_attributed h).2.1 trivial
    exact ⟨_, rfl, rfl, rfl, hfound, hfound.label "x" 1 rfl⟩

end Mac1
