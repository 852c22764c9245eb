import Mac1.Assembly.SourceLine

/-! What it takes for the lines of a program to be accepted one by one. `Reads` says that some source lines
    are the lines of a text, each read on its own; `Consistent` says that their declarations agree with each
    other. The pass over the lines accepts exactly the texts whose lines have both properties. -/

namespace Mac1.SourceLine

/-- The labels that some lines declare, in order. -/
def labels (lines : List SourceLine) : List String := lines.filterMap (·.label?)

/-- The aliases that some lines declare, in order. -/
def aliases (lines : List SourceLine) : List AliasDeclaration := lines.filterMap (·.alias?)

/-- Each of the lines is read from its text and bears its number. -/
structure Reads (texts : List String) (lines : List SourceLine) : Prop where
  texts : lines.map (·.text) = texts
  numbers : ∀ n l, lines[n]? = some l → l.number = n + 1
  statements : ∀ l ∈ lines, ∃ comment, Line.read l.text = .ok ⟨l.statement, comment⟩

/-- No label is declared on two lines, no two aliases share a name, none has the name of a special address,
    and every address that is written lies inside memory. -/
structure Consistent (memorySize : Nat) (lines : List SourceLine) : Prop where
  labels : (labels lines).Nodup
  names : ((aliases lines).map (·.name)).Nodup
  unreserved : ∀ d ∈ aliases lines, ∀ s ∈ SpecialAddress.all, d.name ≠ s.name
  addresses : ∀ d ∈ aliases lines, ∀ a, d.address = some a → Word.Inside memorySize a

/-- What a line declares agrees with the lines before it. -/
structure Agrees (memorySize : Nat) (before : List SourceLine) (l : SourceLine) : Prop where
  label : ∀ name, l.label? = some name → name ∉ labels before
  name : ∀ d, l.alias? = some d → d.name ∉ (aliases before).map (·.name)
  unreserved : ∀ d, l.alias? = some d → ∀ s ∈ SpecialAddress.all, d.name ≠ s.name
  address : ∀ d, l.alias? = some d → ∀ a, d.address = some a → Word.Inside memorySize a

/-! ### One line -/

section Line
variable {memorySize : Nat} {before : List SourceLine} {l : SourceLine}

theorem alias?_eq_some_iff {d : AliasDeclaration} : l.alias? = some d ↔ l.statement = .alias d := by
  unfold alias?
  cases l.statement <;> simp

theorem labelLine?_eq_none_iff {name : String} : labelLine? before name = none ↔ name ∉ labels before := by
  simp [labelLine?, labels, List.find?_eq_none]

theorem aliasLine?_eq_none_iff {name : String} :
    aliasLine? before name = none ↔ name ∉ (aliases before).map (·.name) := by
  simp only [aliasLine?, aliases, Option.map_eq_none_iff, List.find?_eq_none, List.mem_map, List.mem_filterMap,
    beq_iff_eq, Option.map_eq_some_iff]
  exact ⟨fun h ⟨d, ⟨b, hb, hd⟩, hname⟩ => h b hb ⟨d, hd, hname⟩, fun h b hb ⟨d, hd, hname⟩ => h ⟨d, ⟨b, hb, hd⟩, hname⟩⟩

theorem any_reserved_eq_false_iff {name : String} :
    SpecialAddress.all.any (·.name == name) = false ↔ ∀ s ∈ SpecialAddress.all, name ≠ s.name := by
  rw [List.any_eq_false]
  exact forall₂_congr fun s _ => by rw [beq_iff_eq, eq_comm]

theorem checkDeclaration_alias_eq_ok_iff {d : AliasDeclaration} :
    checkDeclaration memorySize before (.alias d) = .ok () ↔
      (∀ s ∈ SpecialAddress.all, d.name ≠ s.name) ∧ d.name ∉ (aliases before).map (·.name) ∧
        ∀ a, d.address = some a → Word.Inside memorySize a := by
  rw [← any_reserved_eq_false_iff, ← aliasLine?_eq_none_iff]
  unfold checkDeclaration
  dsimp only
  cases SpecialAddress.all.any (·.name == d.name) with
  | true => simp
  | false =>
    cases aliasLine? before d.name with
    | some first => simp
    | none =>
      cases ha : d.address with
      | none => simp
      | some a =>
        simp only [Option.some.injEq, forall_eq', true_and, ← Word.exists_index?_iff]
        cases Word.index? memorySize a <;> simp

theorem checkDeclaration_code_eq_ok_iff {line : CodeLine} :
    checkDeclaration memorySize before (.code line) = .ok () ↔
      ∀ name, line.label = some name → name ∉ labels before := by
  unfold checkDeclaration
  dsimp only
  cases line.label with
  | none => simp
  | some name =>
    simp only [Option.some.injEq, forall_eq', ← labelLine?_eq_none_iff]
    cases labelLine? before name <;> simp

theorem checkDeclaration_eq_ok_iff :
    checkDeclaration memorySize before l.statement = .ok () ↔ Agrees memorySize before l := by
  obtain ⟨number, text, statement⟩ := l
  cases statement with
  | empty => exact ⟨fun _ => ⟨nofun, nofun, nofun, nofun⟩, fun _ => rfl⟩
  | «alias» d =>
    have halias : ∀ e, (⟨number, text, .alias d⟩ : SourceLine).alias? = some e → d = e := fun _ he => Option.some.inj he
    rw [checkDeclaration_alias_eq_ok_iff]
    constructor
    · rintro ⟨hreserved, hname, haddress⟩
      refine ⟨nofun, fun e he => ?_, fun e he => ?_, fun e he => ?_⟩ <;> obtain rfl := halias e he
      · exact hname
      · exact hreserved
      · exact haddress
    · rintro ⟨-, hname, hreserved, haddress⟩
      exact ⟨hreserved d rfl, hname d rfl, haddress d rfl⟩
  | code line =>
    rw [checkDeclaration_code_eq_ok_iff]
    exact ⟨fun h => ⟨h, nofun, nofun, nofun⟩, fun h => h.label⟩

theorem readNext_eq_ok_iff {text : String} : readNext memorySize before text = .ok l ↔
    l.number = before.length + 1 ∧ l.text = text ∧ (∃ comment, Line.read text = .ok ⟨l.statement, comment⟩) ∧
      Agrees memorySize before l := by
  rw [← checkDeclaration_eq_ok_iff]
  unfold readNext
  dsimp only
  constructor
  · intro h
    split at h
    · cases h
    · next line hread =>
      split at h
      · cases h
      · next hcheck =>
        cases h
        exact ⟨rfl, rfl, ⟨line.comment, hread⟩, hcheck⟩
  · rintro ⟨hnumber, rfl, ⟨comment, hread⟩, hcheck⟩
    simp only [hread, hcheck, ← hnumber]

end Line

/-! ### All lines -/

section Lines
variable {memorySize : Nat} {texts : List String} {lines before rest : List SourceLine} {l : SourceLine}

theorem labels_append : labels (before ++ rest) = labels before ++ labels rest := List.filterMap_append

theorem aliases_append : aliases (before ++ rest) = aliases before ++ aliases rest := List.filterMap_append

theorem mem_aliases {d : AliasDeclaration} : d ∈ aliases lines ↔ ∃ l ∈ lines, l.alias? = some d := List.mem_filterMap

theorem mem_aliases_singleton {d : AliasDeclaration} : d ∈ aliases [l] ↔ l.alias? = some d := by
  simp [mem_aliases]

theorem nodup_append_toList {α : Type} {xs : List α} {o : Option α} :
    (xs ++ o.toList).Nodup ↔ xs.Nodup ∧ ∀ x, o = some x → x ∉ xs := by
  cases o with
  | none => simp
  | some x =>
    simp only [Option.toList_some, List.nodup_append, List.mem_singleton, Option.some.injEq, forall_eq]
    constructor
    · rintro ⟨h, -, hne⟩
      exact ⟨h, fun y hy hmem => hne x (hy ▸ hmem) rfl⟩
    · rintro ⟨h, hne⟩
      exact ⟨h, by simp, fun a ha heq => hne x rfl (heq ▸ ha)⟩

theorem labels_singleton : labels [l] = l.label?.toList := by
  cases h : l.label? <;> simp [labels, h]

theorem aliases_singleton : aliases [l] = l.alias?.toList := by
  cases h : l.alias? <;> simp [aliases, h]

/-- Declarations stay consistent by one line exactly when the line agrees with the lines before it. -/
theorem consistent_concat : Consistent memorySize (before ++ [l]) ↔
    Consistent memorySize before ∧ Agrees memorySize before l := by
  constructor
  · rintro ⟨hlabels, hnames, hreserved, haddresses⟩
    rw [labels_append, labels_singleton, nodup_append_toList] at hlabels
    rw [aliases_append, aliases_singleton, List.map_append, ← Option.toList_map, nodup_append_toList] at hnames
    simp only [aliases_append, List.mem_append, mem_aliases_singleton] at hreserved haddresses
    exact ⟨⟨hlabels.1, hnames.1, fun d hd => hreserved d (.inl hd), fun d hd => haddresses d (.inl hd)⟩,
      hlabels.2, fun d hd => hnames.2 d.name (by rw [hd]; rfl), fun d hd => hreserved d (.inr hd),
      fun d hd => haddresses d (.inr hd)⟩
  · rintro ⟨⟨hlabels, hnames, hreserved, haddresses⟩, hlabel, hname, hreserved', haddress⟩
    refine ⟨?_, ?_, ?_, ?_⟩
    · rw [labels_append, labels_singleton, nodup_append_toList]
      exact ⟨hlabels, hlabel⟩
    · rw [aliases_append, aliases_singleton, List.map_append, ← Option.toList_map, nodup_append_toList]
      refine ⟨hnames, fun x hx => ?_⟩
      obtain ⟨d, hd, rfl⟩ := Option.map_eq_some_iff.mp hx
      exact hname d hd
    · intro d hd
      rw [aliases_append, List.mem_append, mem_aliases_singleton] at hd
      exact hd.elim (hreserved d) (hreserved' d)
    · intro d hd
      rw [aliases_append, List.mem_append, mem_aliases_singleton] at hd
      exact hd.elim (haddresses d) (haddress d)

theorem Consistent.of_append (h : Consistent memorySize (before ++ rest)) : Consistent memorySize before where
  labels := (List.nodup_append.mp (labels_append ▸ h.labels)).1
  names := by
    have := h.names
    rw [aliases_append, List.map_append, List.nodup_append] at this
    exact this.1
  unreserved d hd := h.unreserved d (by rw [aliases_append]; exact List.mem_append_left _ hd)
  addresses d hd := h.addresses d (by rw [aliases_append]; exact List.mem_append_left _ hd)

theorem consistent_nil : Consistent memorySize [] :=
  ⟨List.nodup_nil, List.nodup_nil, nofun, nofun⟩

theorem reads_nil : Reads [] [] :=
  ⟨rfl, nofun, nofun⟩

theorem Reads.concat {text : String} (h : Reads texts before) (hnumber : l.number = before.length + 1)
    (htext : l.text = text) (hread : ∃ comment, Line.read text = .ok ⟨l.statement, comment⟩) :
    Reads (texts ++ [text]) (before ++ [l]) where
  texts := by rw [List.map_append, h.texts, List.map_singleton, htext]
  numbers n b hb := by
    rcases Nat.lt_or_ge n before.length with hn | hn
    · exact h.numbers n b (by rwa [List.getElem?_append_left hn] at hb)
    · rw [List.getElem?_append_right hn] at hb
      obtain ⟨rfl, hn'⟩ : l = b ∧ n - before.length = 0 := by
        cases hk : n - before.length with
        | zero => exact ⟨by simpa [hk] using hb, rfl⟩
        | succ k => simp [hk] at hb
      omega
  statements b hb := by
    rcases List.mem_append.mp hb with hb | hb
    · exact h.statements b hb
    · obtain rfl := List.mem_singleton.mp hb
      exact htext ▸ hread

/-- Reading on from lines that were read and agree: every further line has to be read and to agree too. -/
theorem readAll_eq_ok_iff_of_before {before : List SourceLine} {beforeTexts : List String}
    (hr : Reads beforeTexts before) (hc : Consistent memorySize before) :
    readAll memorySize before texts = .ok lines ↔
      before <+: lines ∧ Reads (beforeTexts ++ texts) lines ∧ Consistent memorySize lines := by
  induction texts generalizing before beforeTexts with
  | nil =>
    rw [readAll, Except.ok.injEq, List.append_nil]
    constructor
    · rintro rfl
      exact ⟨List.prefix_rfl, hr, hc⟩
    · rintro ⟨hbefore, hreads, -⟩
      exact hbefore.eq_of_length (by simpa using congrArg List.length (hr.texts.trans hreads.texts.symm))
  | cons text texts ih =>
    rw [readAll]
    constructor
    · intro h
      split at h
      · cases h
      · next l hnext =>
        obtain ⟨hnumber, htext, hread, hagrees⟩ := readNext_eq_ok_iff.mp hnext
        obtain ⟨hbefore, hreads, hconsistent⟩ :=
          (ih (hr.concat hnumber htext hread) (consistent_concat.mpr ⟨hc, hagrees⟩)).mp h
        rw [List.append_assoc] at hreads
        exact ⟨(List.prefix_append before [l]).trans hbefore, hreads, hconsistent⟩
    · rintro ⟨⟨rest, rfl⟩, hreads, hconsistent⟩
      cases rest with
      | nil =>
        have := congrArg List.length (hr.texts.symm.trans (by simpa using hreads.texts))
        simp at this
      | cons l rest =>
        have htexts := hreads.texts
        rw [List.map_append, hr.texts, List.append_cancel_left_eq, List.map_cons, List.cons.injEq] at htexts
        have hnumber : l.number = before.length + 1 := hreads.numbers before.length l (by simp)
        obtain ⟨comment, hread⟩ := hreads.statements l (by simp)
        rw [htexts.1] at hread
        have hsplit : before ++ l :: rest = before ++ [l] ++ rest := List.append_cons ..
        have hbefore : Consistent memorySize (before ++ [l]) := (hsplit ▸ hconsistent).of_append
        have hagrees := (consistent_concat.mp hbefore).2
        rw [readNext_eq_ok_iff.mpr ⟨hnumber, htexts.1, ⟨comment, hread⟩, hagrees⟩]
        refine (ih (hr.concat hnumber htexts.1 ⟨comment, hread⟩) hbefore).mpr ⟨?_, ?_, hconsistent⟩
        · exact hsplit ▸ List.prefix_append _ _
        · rwa [List.append_assoc]

/-- The lines of a text are accepted exactly if each can be read and their declarations are consistent. -/
theorem readAll_eq_ok_iff :
    readAll memorySize [] texts = .ok lines ↔ Reads texts lines ∧ Consistent memorySize lines := by
  rw [readAll_eq_ok_iff_of_before reads_nil consistent_nil, List.nil_append]
  exact and_iff_right (List.nil_prefix)

end Lines

end Mac1.SourceLine
