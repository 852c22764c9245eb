import Mac1.Proofs.Assembly.Draft
import Mac1.Proofs.Assembly.Allocation
import Mac1.Proofs.Indexing

/-! How a draft becomes a symbol table. What a draft holds after some lines is told by the lines: `Holds` is the invariant,
    and `Entered` what one more line does. The draft is refused for the same error as the lines, or ends as a
    representation of their table. It never goes to a place outside of its array: an alias keeps its place when
    addresses are given later. -/

namespace Mac1

open SourceLine

/-! ### What lines contribute -/

namespace SourceLine

/-- The address that is written on a line. -/
def written? (l : SourceLine) : Option Nat := (l.alias?.bind (·.address)).map (·.toInt.toNat)

/-- The alias that a line declares, as it is entered. -/
def drafted? (l : SourceLine) : Option Alias :=
  l.alias?.map fun d => ⟨d.name, (d.address.map (·.toInt.toNat)).getD 0, d.value, some l.number⟩

/-- The notes about the aliases without an address, if `place` is the place of the first alias of the lines and `position`
    the position of the first line. -/
def notesFrom (place position : Nat) : List SourceLine → List (Nat × Nat)
  | [] => []
  | l :: lines =>
    let rest := notesFrom (if l.declaresAlias then place + 1 else place) (position + 1) lines
    if l.needsAddress then (place, position) :: rest else rest

variable {memorySize : Nat} {lines rest : List SourceLine} {l : SourceLine} {declared : AliasDeclaration} {name : String}

theorem drafted?_of_none (hd : l.alias? = none) : l.drafted? = none := by
  rw [drafted?, hd, Option.map_none]

theorem drafted?_of_some (hd : l.alias? = some declared) :
    l.drafted? = some ⟨declared.name, (declared.address.map (·.toInt.toNat)).getD 0, declared.value, some l.number⟩ := by
  rw [drafted?, hd, Option.map_some]

theorem notesFrom_cons_of_none (place position : Nat) (hd : l.alias? = none) :
    notesFrom place position (l :: lines) = notesFrom place (position + 1) lines := by
  simp [notesFrom, declaresAlias, needsAddress, hd]

theorem notesFrom_cons_of_written (place position : Nat) {a : Word} (hd : l.alias? = some declared)
    (ha : declared.address = some a) :
    notesFrom place position (l :: lines) = notesFrom (place + 1) (position + 1) lines := by
  simp [notesFrom, declaresAlias, needsAddress, hd, ha]

theorem notesFrom_cons_of_open (place position : Nat) (hd : l.alias? = some declared) (ha : declared.address = none) :
    notesFrom place position (l :: lines) = (place, position) :: notesFrom (place + 1) (position + 1) lines := by
  simp [notesFrom, declaresAlias, needsAddress, hd, ha]

theorem notesFrom_append (place position : Nat) : notesFrom place position (lines ++ rest) =
    notesFrom place position lines ++ notesFrom (place + lines.countP declaresAlias) (position + lines.length) rest := by
  induction lines generalizing place position with
  | nil => rfl
  | cons l lines ih =>
    rw [List.cons_append, notesFrom, notesFrom, ih, List.countP_cons, List.length_cons]
    have hplace : (if l.declaresAlias then place + 1 else place) + lines.countP declaresAlias =
        place + (lines.countP declaresAlias + if l.declaresAlias then 1 else 0) := by
      split <;> omega
    rw [hplace, Nat.add_right_comm position, ← Nat.add_assoc position]
    split <;> rfl

theorem le_of_mem_notesFrom {place position : Nat} {note : Nat × Nat} (h : note ∈ notesFrom place position lines) :
    place ≤ note.1 := by
  induction lines generalizing place position with
  | nil => cases h
  | cons l lines ih =>
    have hrest (h : note ∈ notesFrom (if l.declaresAlias then place + 1 else place) (position + 1) lines) :
        place ≤ note.1 := by
      have := ih h
      split at this <;> omega
    rw [notesFrom] at h
    split at h
    · rcases List.mem_cons.mp h with rfl | h
      · exact Nat.le_refl _
      · exact hrest h
    · exact hrest h

/-- The aliases without a note are those with an address of their own. -/
theorem filter_zipIdx_drafted? (place position : Nat) :
    (((lines.filterMap drafted?).zipIdx place).filter fun x =>
        x.2 ∉ (notesFrom place position lines).map (·.1)).map (·.1.address) =
      lines.filterMap written? := by
  induction lines generalizing place position with
  | nil => rfl
  | cons l lines ih =>
    cases hd : l.alias? with
    | none =>
      have hnone : l.written? = none := by rw [written?, hd]; rfl
      rw [notesFrom_cons_of_none _ _ hd, List.filterMap_cons_none (drafted?_of_none hd), List.filterMap_cons_none hnone, ih]
    | some declared =>
      rw [List.filterMap_cons_some (drafted?_of_some hd), List.zipIdx_cons]
      cases ha : declared.address with
      | some a =>
        have hkept : place ∉ (notesFrom (place + 1) (position + 1) lines).map (·.1) := fun hmem => by
          obtain ⟨note, hnote, hplace⟩ := List.mem_map.mp hmem
          have := le_of_mem_notesFrom hnote
          omega
        have hsome : l.written? = some a.toInt.toNat := by rw [written?, hd, Option.bind_some, ha]; rfl
        rw [notesFrom_cons_of_written _ _ hd ha, List.filter_cons_of_pos (by simpa using hkept), List.map_cons, ih,
          List.filterMap_cons_some hsome]
        rfl
      | none =>
        have hnone : l.written? = none := by rw [written?, hd, Option.bind_some, ha]; rfl
        -- the places of the other aliases lie behind that of the first
        have hafter : ∀ x ∈ (lines.filterMap drafted?).zipIdx (place + 1),
            (x.2 ∉ place :: (notesFrom (place + 1) (position + 1) lines).map (·.1)) ↔
              x.2 ∉ (notesFrom (place + 1) (position + 1) lines).map (·.1) := fun x hx => by
          have := List.le_snd_of_mem_zipIdx hx
          have hne : x.2 ≠ place := by omega
          rw [List.mem_cons, or_iff_right hne]
        rw [notesFrom_cons_of_open _ _ hd ha, List.map_cons, List.filter_cons_of_neg (by simp), List.filterMap_cons_none hnone,
          ← ih (place + 1) (position + 1)]
        exact congrArg _ (List.filter_congr fun x hx => decide_eq_decide.mpr (hafter x hx))

theorem length_filterMap_drafted? : (lines.filterMap drafted?).length = lines.countP declaresAlias := by
  rw [List.length_filterMap_eq_countP]
  exact congrArg (lines.countP ·) (funext fun l => Option.isSome_map)

theorem map_line_find?_drafted? (lines : List SourceLine) (name : String) :
    ((lines.filterMap drafted?).find? (·.name == name)).map (·.line) = (aliasLine? lines name).map some := by
  induction lines with
  | nil => rfl
  | cons l lines ih =>
    rw [aliasLine?] at ih ⊢
    cases hd : l.alias? with
    | none => rw [List.filterMap_cons_none (drafted?_of_none hd), ih, List.find?_cons_of_neg (by simp [hd])]
    | some declared =>
      rw [List.filterMap_cons_some (drafted?_of_some hd)]
      by_cases hname : declared.name = name
      · rw [List.find?_cons_of_pos (by simpa using hname), List.find?_cons_of_pos (by simp [hd, hname])]
        rfl
      · rw [List.find?_cons_of_neg (by simpa using hname), ih, List.find?_cons_of_neg (by simp [hd, hname])]

theorem any_name_eq_isSome_find? : SpecialAddress.all.any (·.name == name) =
    ((SpecialAddress.all.map Alias.ofSpecial).find? (·.name == name)).isSome := by
  rw [List.isSome_find?, List.any_map]
  rfl

/-- An alias is refused because of the one that a search finds, special or declared. -/
theorem checkDeclaration_alias_of_find?_eq_some {a : Alias}
    (h : (SpecialAddress.all.map Alias.ofSpecial ++ lines.filterMap drafted?).find? (·.name == declared.name) = some a) :
    checkDeclaration memorySize lines (.alias declared) = .error (.aliasRedefined declared.name a.line) := by
  rw [checkDeclaration, any_name_eq_isSome_find?]
  rw [List.find?_append, Option.or_eq_some_iff] at h
  rcases h with hspecial | ⟨hspecial, hdrafted⟩
  · obtain ⟨s, -, rfl⟩ := List.mem_map.mp (List.mem_of_find?_eq_some hspecial)
    rw [hspecial]
    rfl
  · have hline := map_line_find?_drafted? lines declared.name
    rw [hdrafted, Option.map_some, eq_comm, Option.map_eq_some_iff] at hline
    obtain ⟨first, hfirst, hline⟩ := hline
    rw [hspecial, ← hline]
    simp [hfirst]

theorem checkDeclaration_alias_of_find?_eq_none
    (h : (SpecialAddress.all.map Alias.ofSpecial ++ lines.filterMap drafted?).find? (·.name == declared.name) = none) :
    checkDeclaration memorySize lines (.alias declared) =
      match declared.address with
      | none => .ok ()
      | some a =>
        match Word.index? memorySize a with
        | none => .error (.aliasAddressOutOfRange a)
        | some _ => .ok () := by
  rw [List.find?_append, Option.or_eq_none_iff] at h
  obtain ⟨hspecial, hdrafted⟩ := h
  have hline := map_line_find?_drafted? lines declared.name
  rw [hdrafted, Option.map_none, eq_comm, Option.map_eq_none_iff] at hline
  rw [checkDeclaration, any_name_eq_isSome_find?, hspecial, hline]
  rfl

end SourceLine

namespace SymbolTable
variable {lines rest : List SourceLine} {name : String}

theorem labelsFrom_append (next : Nat) :
    labelsFrom next (lines ++ rest) = labelsFrom next lines ++ labelsFrom (next + lines.countP hasCommand) rest := by
  induction lines generalizing next with
  | nil => rfl
  | cons l lines ih =>
    have hnext : (if l.hasCommand then next + 1 else next) + lines.countP hasCommand =
        next + (lines.countP hasCommand + if l.hasCommand then 1 else 0) := by
      split <;> omega
    rw [List.cons_append, labelsFrom, labelsFrom, ih, List.countP_cons, hnext]
    cases l.label? <;> rfl

/-- Counting from a later index moves every label. -/
theorem labelsFrom_add (next count : Nat) (lines : List SourceLine) :
    labelsFrom (next + count) lines = (labelsFrom next lines).map fun b => { b with index := b.index + count } := by
  induction lines generalizing next with
  | nil => rfl
  | cons l lines ih =>
    have hnext : (if l.hasCommand then next + count + 1 else next + count) =
        (if l.hasCommand then next + 1 else next) + count := by
      split <;> omega
    rw [labelsFrom, labelsFrom, hnext, ih]
    cases l.label? <;> rfl

theorem map_line_find?_labelsFrom (next : Nat) :
    ((labelsFrom next lines).find? (·.name == name)).map (·.line) = labelLine? lines name := by
  induction lines generalizing next with
  | nil => rfl
  | cons l lines ih =>
    rw [labelsFrom, labelLine?]
    cases hlabel : l.label? with
    | none => rw [ih, labelLine?, List.find?_cons_of_neg (by simp [hlabel])]
    | some declared =>
      by_cases hname : declared = name
      · rw [List.find?_cons_of_pos (by simpa using hname), List.find?_cons_of_pos (by simp [hlabel, hname])]
        rfl
      · rw [List.find?_cons_of_neg (by simpa using hname), ih, labelLine?, List.find?_cons_of_neg (by simp [hlabel, hname])]

end SymbolTable

/-- The entry of a label. -/
def Label.entry (b : Label) : LabelEntry := ⟨b.index, b.line⟩

namespace Draft

/-- A program and its draft are refused for the same error, or have results that go together. The error of a pass may be
    only a part of the error that it becomes. -/
inductive KeepsPace {ε α β : Type} (wrap : ε → AssemblyError) (R : α → β → Prop) :
    Except ε α → Except Failure β → Prop where
  | refused (e : ε) : KeepsPace wrap R (.error e) (.error (.refused (wrap e)))
  | done {a : α} {b : β} (h : R a b) : KeepsPace wrap R (.ok a) (.ok b)

theorem KeepsPace.or {ε α β : Type} {wrap : ε → AssemblyError} {R : α → β → Prop} {x : Except ε α}
    {y : Except Failure β} (h : KeepsPace wrap R x y) :
    (∃ e, x = .error e ∧ y = .error (.refused (wrap e))) ∨ ∃ a b, x = .ok a ∧ y = .ok b ∧ R a b := by
  cases h with
  | refused e => exact .inl ⟨e, rfl, rfl⟩
  | done h => exact .inr ⟨_, _, rfl, rfl, h⟩

theorem KeepsPace.map {ε α β γ : Type} {wrap : ε → AssemblyError} {R : α → β → Prop} {S : γ → β → Prop} {f : α → γ}
    {x : Except ε α} {y : Except Failure β} (h : KeepsPace wrap R x y) (hf : ∀ a b, R a b → S (f a) b) :
    KeepsPace wrap S (x.map f) y := by
  cases h with
  | refused e => exact .refused e
  | done h => exact .done (hf _ _ h)

/-- The draft holds what some lines declare. -/
structure Holds (before : List SourceLine) (d : Draft) : Prop where
  lines : d.lines.toList = before
  aliases : d.aliases.toList = SpecialAddress.all.map Alias.ofSpecial ++ before.filterMap drafted?
  places : Indexes Alias.name d.aliases d.places
  labels : ∀ name, d.labels[name]? = ((SymbolTable.labelsFrom 0 before).find? (·.name == name)).map Label.entry
  unplaced : d.unplaced.toList = notesFrom SpecialAddress.all.length 0 before
  initials : d.initials = SymbolTable.initialCount before
  commands : d.commands = before.countP hasCommand

/-- What entering a line does to a draft. -/
structure Entered (d : Draft) (l : SourceLine) (d' : Draft) : Prop where
  lines : d'.lines = d.lines
  aliases : d'.aliases.toList = d.aliases.toList ++ l.drafted?.toList
  places : Indexes Alias.name d'.aliases d'.places
  labels : ∀ name, d'.labels[name]? =
    d.labels[name]?.or (if l.label? = some name then some ⟨d.commands, l.number⟩ else none)
  unplaced : d'.unplaced.toList = d.unplaced.toList ++ if l.needsAddress then [(d.aliases.size, d.lines.size)] else []
  initials : d'.initials = d.initials + if l.alias?.any (·.value.isSome) then 1 else 0
  commands : d'.commands = d.commands + if l.hasCommand then 1 else 0

section Reading
variable {memorySize : Nat} {before : List SourceLine} {d d' : Draft} {l : SourceLine}

theorem Holds.size_lines (h : d.Holds before) : d.lines.size = before.length := by
  rw [← h.lines, Array.length_toList]

theorem Holds.size_aliases (h : d.Holds before) :
    d.aliases.size = SpecialAddress.all.length + before.countP declaresAlias := by
  rw [← Array.length_toList, h.aliases, List.length_append, List.length_map, length_filterMap_drafted?]

theorem Holds.concat (h : d.Holds before) (hentered : d.Entered l d') :
    Holds (before ++ [l]) { d' with lines := d'.lines.push l } := by
  constructor
  case lines => rw [Array.toList_push, hentered.lines, h.lines]
  case aliases =>
    rw [hentered.aliases, h.aliases, List.append_assoc, List.filterMap_append]
    cases hl : l.drafted? <;> simp [hl]
  case places => exact hentered.places
  case labels =>
    intro name
    rw [hentered.labels, h.labels, SymbolTable.labelsFrom_append, List.find?_append, Option.map_or, h.commands,
      Nat.zero_add, SymbolTable.labelsFrom, SymbolTable.labelsFrom]
    cases hl : l.label? with
    | none => simp
    | some declared =>
      by_cases hname : declared = name <;> simp [hname, Label.entry]
  case unplaced =>
    rw [hentered.unplaced, h.unplaced, notesFrom_append, h.size_aliases, h.size_lines, Nat.zero_add]
    rfl
  case initials =>
    rw [hentered.initials, h.initials, SymbolTable.initialCount, SymbolTable.initialCount, List.countP_append,
      List.countP_singleton]
  case commands => rw [hentered.commands, h.commands, List.countP_append, List.countP_singleton]

theorem holds_start : start.Holds [] where
  lines := rfl
  aliases := rfl
  places := Indexes.empty.push Std.HashMap.not_mem_empty
  labels _ := Std.HashMap.getElem?_empty
  unplaced := rfl
  initials := rfl
  commands := rfl

theorem entered_addAlias {declared : AliasDeclaration} {address : Option Nat} (h : d.Holds before)
    (hl : l.statement = .alias declared) (hnew : d.places[declared.name]? = none)
    (haddress : declared.address.map (·.toInt.toNat) = address) : d.Entered l (d.addAlias l declared address) := by
  have halias : l.alias? = some declared := alias?_eq_some_iff.mpr hl
  have hlabel : l.label? = none := by rw [SourceLine.label?, hl]
  have hcommand : l.hasCommand = false := by rw [hasCommand, hl]
  subst haddress
  constructor
  case lines => rfl
  case aliases =>
    rw [drafted?, halias]
    exact Array.toList_push
  case places => exact h.places.push (by simp [Std.HashMap.mem_iff_isSome_getElem?, hnew])
  case labels =>
    intro name
    simp [hlabel, addAlias, pushAlias]
  case unplaced => cases ha : declared.address <;> simp [addAlias, needsAddress, halias, ha]
  case initials => cases hv : declared.value <;> simp [addAlias, halias, hv]
  case commands => simp [addAlias, hcommand, pushAlias]

theorem Holds.enterAlias {declared : AliasDeclaration} (h : d.Holds before) (hl : l.statement = .alias declared) :
    KeepsPace (fun e => l.error (.declaration e)) (fun _ d' => d.Entered l d')
      (checkDeclaration memorySize before (.alias declared)) (d.enterAlias memorySize l declared) := by
  unfold Draft.enterAlias
  rcases h.places.find?_cases declared.name with ⟨place, a, hplace, ha, hfind⟩ | ⟨hplace, hfind⟩
  · rw [h.aliases] at hfind
    rw [checkDeclaration_alias_of_find?_eq_some hfind, hplace]
    simp only [aliasAt, ha]
    exact .refused _
  · rw [h.aliases] at hfind
    rw [checkDeclaration_alias_of_find?_eq_none hfind, hplace]
    cases haddress : declared.address with
    | none => exact .done (entered_addAlias h hl hplace (by rw [haddress, Option.map_none]))
    | some a =>
      cases hindex : Word.index? memorySize a with
      | none =>
        simp only [hindex]
        exact .refused _
      | some address =>
        obtain ⟨hvalue, -⟩ := Word.index?_eq_some_iff.mp hindex
        simp only [hindex]
        exact .done (entered_addAlias h hl hplace (by rw [haddress, Option.map_some, hvalue, Int.toNat_natCast]))

theorem Holds.map_line_labels (h : d.Holds before) (name : String) :
    d.labels[name]?.map (·.line) = SourceLine.labelLine? before name := by
  rw [h.labels, Option.map_map, ← SymbolTable.map_line_find?_labelsFrom 0]
  rfl

/-- A line without an alias changes at most the labels and the number of commands. -/
theorem Holds.entered_of_alias?_eq_none (h : d.Holds before) (halias : l.alias? = none)
    {labels : Std.HashMap String LabelEntry} {commands : Nat}
    (hlabels : ∀ name, labels[name]? =
      d.labels[name]?.or (if l.label? = some name then some ⟨d.commands, l.number⟩ else none))
    (hcommands : commands = d.commands + if l.hasCommand then 1 else 0) :
    d.Entered l { d with labels, commands } where
  lines := rfl
  aliases := by rw [drafted?_of_none halias, Option.toList_none, List.append_nil]
  places := h.places
  labels := hlabels
  unplaced := by simp [needsAddress, halias]
  initials := by simp [halias]
  commands := hcommands

theorem Holds.enterCode {line : CodeLine} (h : d.Holds before) (hl : l.statement = .code line) :
    KeepsPace (fun e => l.error (.declaration e)) (fun _ d' => d.Entered l d')
      (checkDeclaration memorySize before (.code line)) (d.enter memorySize l) := by
  have halias : l.alias? = none := by rw [SourceLine.alias?, hl]
  have hlabel : l.label? = line.label := by rw [SourceLine.label?, hl]
  have hcommands : (if line.hasCommand then d.commands + 1 else d.commands) =
      d.commands + if l.hasCommand then 1 else 0 := by
    rw [hasCommand, hl]
    dsimp only
    split <;> rfl
  rw [enter, hl, checkDeclaration]
  dsimp only
  cases hname : line.label with
  | none => exact .done (h.entered_of_alias?_eq_none halias (by simp [hlabel, hname]) hcommands)
  | some name =>
    have hline := h.map_line_labels name
    unfold enterLabel
    dsimp only
    cases hfirst : d.labels[name]? with
    | some first =>
      rw [← hline, hfirst]
      exact .refused _
    | none =>
      rw [← hline, hfirst]
      refine .done (h.entered_of_alias?_eq_none halias (fun other => ?_) hcommands)
      rw [Std.HashMap.getElem?_insert, hlabel, hname]
      by_cases hother : name = other
      · subst hother
        simp [hfirst]
      · simp [hother]

theorem Holds.enter (memorySize : Nat) (h : d.Holds before) (l : SourceLine) :
    KeepsPace (fun e => l.error (.declaration e)) (fun _ d' => d.Entered l d')
      (checkDeclaration memorySize before l.statement) (d.enter memorySize l) := by
  cases hl : l.statement with
  | empty =>
    have halias : l.alias? = none := by rw [SourceLine.alias?, hl]
    have hlabel : l.label? = none := by rw [SourceLine.label?, hl]
    have hcommand : l.hasCommand = false := by rw [hasCommand, hl]
    rw [Draft.enter, hl]
    exact .done (h.entered_of_alias?_eq_none halias (by simp [hlabel]) (by simp [hcommand]))
  | «alias» declared =>
    rw [Draft.enter, hl]
    exact h.enterAlias hl
  | code line => exact h.enterCode hl

/-- Reading the next line keeps the draft in step with the lines. -/
theorem Holds.readLine (memorySize : Nat) (h : d.Holds before) (text : String) :
    KeepsPace id (fun l d' => d'.Holds (before ++ [l])) (readNext memorySize before text) (d.readLine memorySize text) := by
  unfold Draft.readLine readNext
  dsimp only
  rw [h.size_lines]
  cases Line.read text with
  | error e => exact .refused _
  | ok line =>
    dsimp only
    obtain ⟨e, hcheck, hd⟩ | ⟨_, d', hcheck, hd, hentered⟩ :=
      (h.enter memorySize ⟨before.length + 1, text, line.statement⟩).or
    · rw [hcheck, hd]
      exact .refused _
    · rw [hcheck, hd]
      exact .done (h.concat hentered)

theorem Holds.readAll (memorySize : Nat) (h : d.Holds before) (texts : List String) :
    KeepsPace id (fun lines d' => d'.Holds lines) (readAll memorySize before texts)
      (texts.foldlM (Draft.readLine memorySize) d) := by
  induction texts generalizing before d with
  | nil => exact .done h
  | cons text texts ih =>
    rw [SourceLine.readAll, List.foldlM_cons]
    obtain ⟨e, hnext, hd⟩ | ⟨l, d', hnext, hd, hd'⟩ := (h.readLine memorySize text).or
    · rw [hnext, hd]
      exact .refused _
    · rw [hnext, hd]
      exact ih hd'

end Reading

/-! ### Addresses given later -/

section Allocation
variable {memorySize : Nat} {before lines : List SourceLine} {d : Draft} {front : List Alias}

/-- Along the lines, each note about an alias gives it the next free address. The aliases of `front` are placed already. -/
theorem allocate_notesFrom (free : List Nat) (hlines : d.lines.toList = before ++ lines)
    (haliases : d.aliases.toList = front ++ lines.filterMap drafted?) :
    KeepsPace id (fun declared d' => d' = { d with aliases := (front ++ declared).toArray })
      (SymbolTable.allocate free lines) (d.allocate (notesFrom front.length before.length lines) free) := by
  induction lines generalizing free front before d with
  | nil =>
    rw [List.filterMap_nil] at haliases
    refine .done ?_
    rw [← haliases]
  | cons l lines ih =>
    have hlines' : d.lines.toList = before ++ [l] ++ lines := by rw [hlines, List.append_cons]
    have hposition : (before ++ [l]).length = before.length + 1 := by simp
    have hplace (a : Alias) : (front ++ [a]).length = front.length + 1 := by simp
    cases hd : l.alias? with
    | none =>
      rw [List.filterMap_cons_none (drafted?_of_none hd)] at haliases
      rw [allocate_cons_of_none _ hd, notesFrom_cons_of_none _ _ hd, ← hposition]
      exact ih free hlines' haliases
    | some declared =>
      rw [List.filterMap_cons_some (drafted?_of_some hd)] at haliases
      cases ha : declared.address with
      | some a =>
        rw [ha, List.append_cons] at haliases
        have hrest := ih free hlines' haliases
        rw [hposition, hplace] at hrest
        rw [allocate_cons_of_written _ hd ha, notesFrom_cons_of_written _ _ hd ha]
        exact hrest.map fun tail d' hd' => by rw [hd', ← List.append_cons]; rfl
      | none =>
        rw [ha] at haliases
        rw [notesFrom_cons_of_open _ _ hd ha]
        cases free with
        | nil =>
          have hline : d.lines[before.length]? = some l := by
            rw [← Array.getElem?_toList, hlines]
            simp
          rw [allocate_nil_cons_of_open hd ha]
          simp only [Draft.allocate, lineAt, hline]
          exact .refused _
        | cons address free =>
          have hplaced : d.aliases[front.length]? = some ⟨declared.name, 0, declared.value, some l.number⟩ := by
            rw [← Array.getElem?_toList, haliases]
            simp
          have hset : (d.setAlias front.length ⟨declared.name, address, declared.value, some l.number⟩).aliases.toList =
              front ++ [⟨declared.name, address, declared.value, some l.number⟩] ++ lines.filterMap drafted? := by
            simp [setAlias, haliases]
          have hrest := @ih _ (d.setAlias front.length _) _ free hlines' hset
          rw [hposition, hplace] at hrest
          rw [allocate_cons_of_open _ _ hd ha]
          simp only [Draft.allocate, aliasAt, hplaced]
          exact hrest.map fun tail d' hd' => by rw [hd', ← List.append_cons]; rfl

/-- No alias gets an address that is special or written on a line. -/
theorem Holds.mem_taken (h : d.Holds lines) {address : Nat} :
    address ∈ d.taken ↔ address ∈ SymbolTable.takenAddresses lines := by
  have hlength : 0 + (SpecialAddress.all.map Alias.ofSpecial).length = SpecialAddress.all.length := by
    rw [Nat.zero_add, List.length_map]
  have hsplit : SymbolTable.takenAddresses lines = SpecialAddress.all.map (·.address) ++ lines.filterMap written? := rfl
  rw [taken, h.aliases, h.unplaced, List.zipIdx_append, List.filter_append, List.map_append, hlength,
    filter_zipIdx_drafted?, hsplit, ← List.append_assoc, List.mem_append, List.mem_append, List.mem_append]
  refine or_congr_left (or_iff_left_of_imp fun haddress => ?_)
  -- the aliases of the special addresses add nothing
  obtain ⟨x, hx, rfl⟩ := List.mem_map.mp haddress
  obtain ⟨s, hs, hspecial⟩ := List.mem_map.mp (List.fst_mem_of_mem_zipIdx (List.mem_filter.mp hx).1)
  rw [← hspecial]
  exact List.mem_map_of_mem hs

/-- The search for free addresses finds those that the aliases of the lines get. -/
theorem Holds.allocate_free (h : d.Holds lines) : SymbolTable.ofLines memorySize lines =
    (SymbolTable.allocate ((List.range memorySize).filter (· ∉ d.taken)) lines).map fun declared =>
      ⟨SymbolTable.labelsFrom (SymbolTable.initialCount lines) lines,
        SpecialAddress.all.map Alias.ofSpecial ++ declared⟩ := by
  have hfree : (List.range memorySize).filter (· ∉ d.taken) =
      (List.range memorySize).filter (· ∉ SymbolTable.takenAddresses lines) :=
    List.filter_congr fun address _ => decide_eq_decide.mpr (not_congr h.mem_taken)
  rw [hfree, ← allocate_take _ (Nat.le_refl (lines.countP needsAddress)), ← freeAddresses_eq_take]
  rfl

end Allocation

/-! ### Tables -/

/-- The draft stands for the table. -/
structure Represents (d : Draft) (t : SymbolTable) : Prop where
  aliases : d.aliases.toList = t.aliases
  places : Indexes Alias.name d.aliases d.places
  labels : ∀ name, d.labels[name]? = (t.label? name).map Label.entry

section Tables
variable {memorySize : Nat} {lines : List SourceLine} {declared : List Alias} {d : Draft} {t : SymbolTable}

/-- Later changes leave the names of aliases as they are, so every alias keeps its place. -/
theorem Holds.represents (h : d.Holds lines) {free : List Nat}
    (hdeclared : SymbolTable.allocate free lines = .ok declared) :
    Represents { d.shiftLabels with aliases := (SpecialAddress.all.map Alias.ofSpecial ++ declared).toArray }
      ⟨SymbolTable.labelsFrom (SymbolTable.initialCount lines) lines,
        SpecialAddress.all.map Alias.ofSpecial ++ declared⟩ := by
  constructor
  case aliases => rfl
  case places =>
    have hnames := map_of_placed_isAlias (fun name _ _ => name) (allocate_eq_ok_iff.mp hdeclared).2
    refine h.places.congr ?_
    rw [h.aliases, List.map_append, List.map_append, hnames, List.map_filterMap]
    refine congrArg _ (List.filterMap_congr fun l _ => ?_)
    rw [drafted?, Option.map_map]
    rfl
  case labels =>
    intro name
    have hlabels := SymbolTable.labelsFrom_add 0 (SymbolTable.initialCount lines) lines
    rw [Nat.zero_add] at hlabels
    rw [SymbolTable.label?, hlabels, List.find?_map, Option.map_map, shiftLabels, h.initials, Std.HashMap.getElem?_map,
      h.labels, Option.map_map]
    rfl

/-- Drafting a table ends as reading the lines and making their table does, with a draft that stands for the table. -/
theorem keepsPace_ofTexts (memorySize : Nat) (texts : List String) :
    KeepsPace id (fun x d => d.lines.toList = x.1 ∧ d.Represents x.2)
      (do
        let lines ← SourceLine.readAll memorySize [] texts
        let t ← SymbolTable.ofLines memorySize lines
        return (lines, t))
      (ofTexts memorySize texts) := by
  rw [ofTexts]
  obtain ⟨e, hlines, hd⟩ | ⟨lines, d, hlines, hd, h⟩ := (holds_start.readAll memorySize texts).or
  · rw [hlines, hd]
    exact .refused e
  rw [hlines, hd]
  change KeepsPace id _ (SymbolTable.ofLines memorySize lines >>= fun t => .ok (lines, t))
    (d.shiftLabels.allocate d.unplaced.toList ((List.range memorySize).filter (· ∉ d.taken)))
  rw [h.allocate_free, h.unplaced]
  have hplaced := @allocate_notesFrom [] lines d.shiftLabels _ ((List.range memorySize).filter (· ∉ d.taken)) h.lines
    h.aliases
  rw [List.length_map, List.length_nil] at hplaced
  obtain ⟨e, hdeclared, hd'⟩ | ⟨declared, d', hdeclared, hd', rfl⟩ := hplaced.or
  · rw [hdeclared, hd']
    exact .refused e
  · rw [hdeclared, hd']
    exact .done ⟨h.lines, h.represents hdeclared⟩

/-- No place and no position that a draft uses lies outside of its array. -/
theorem ofTexts_ne_outside (memorySize : Nat) (texts : List String) (position : Nat) :
    ofTexts memorySize texts ≠ .error (.outside position) := by
  obtain ⟨e, -, hd⟩ | ⟨_, d, -, hd, -⟩ := (keepsPace_ofTexts memorySize texts).or
  · rw [hd]
    nofun
  · rw [hd]
    nofun

theorem Represents.alias?_eq (h : d.Represents t) (name : String) : d.alias? name = .ok (t.alias? name) := by
  unfold Draft.alias? SymbolTable.alias?
  rw [← h.aliases]
  rcases h.places.find?_cases name with ⟨place, a, hplace, ha, hfind⟩ | ⟨hplace, hfind⟩
  · simp only [hplace, aliasAt, ha, hfind]
    rfl
  · simp only [hplace, hfind]

theorem Represents.label?_eq (h : d.Represents t) (name : String) : d.label? name = (t.label? name).map (·.index) := by
  rw [Draft.label?, h.labels, Option.map_map]
  rfl

theorem Represents.labelLine?_eq (h : d.Represents t) (name : String) :
    d.labelLine? name = (t.label? name).map (·.line) := by
  rw [Draft.labelLine?, h.labels, Option.map_map]
  rfl

end Tables

end Draft

end Mac1
