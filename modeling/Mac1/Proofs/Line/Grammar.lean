import Mac1.Line
import Mac1.Proofs.Text.Decimal

/-! The grammar of a line. `DeclaresAlias` and `IsCode` say which items, comments left out, are an alias declaration and
    which are a line of code; `Verdict` adds what is wrong with all others. Reading a line comes to exactly
    this verdict, so a line is accepted if and only if its items are in the grammar. -/

namespace Mac1

/-! ### Declarations and code -/

/-- The items are clauses, in any order and of each kind at most one, which give an address and a value. -/
inductive Clauses : List Token → Option Word → Option Word → Prop where
  | nil : Clauses [] none none
  | address {w : String} {a : Word} {rest : List Token} {value : Option Word} (h : Decimal.Writes w.toList a.toInt)
    (hrest : Clauses rest none value) : Clauses (.addressMark :: .word w :: rest) (some a) value
  | value {w : String} {v : Word} {rest : List Token} {address : Option Word} (h : Decimal.Writes w.toList v.toInt)
    (hrest : Clauses rest address none) : Clauses (.valueMark :: .word w :: rest) address (some v)

/-- The items start as an alias declaration does, and `rest` follows the name. -/
inductive Opens : List Token → String → List Token → Prop where
  | mk {keyword name : String} {rest : List Token} (h : Text.eqIgnoreAsciiCase keyword "alias" = true) :
    Opens (.hash :: .word keyword :: .word name :: rest) name rest

/-- The text is not written as an integer, whatever its size. -/
def IsName (name : String) : Prop := ∀ n, ¬Decimal.Writes name.toList n

/-- The items declare an alias. -/
def DeclaresAlias (items : List Token) (d : AliasDeclaration) : Prop :=
  ∃ rest, Opens items d.name rest ∧ IsName d.name ∧ Clauses rest d.address d.value

/-- The items that a line of code is written with. -/
def CodeLine.items (l : CodeLine) : List Token :=
  (l.label.elim [] fun label => [.word label, .colon]) ++ l.command.toList.map .word ++ l.parameter.toList.map .word

/-- The items are a line of code. A parameter has to follow a command. -/
def IsCode (items : List Token) (l : CodeLine) : Prop :=
  items = l.items ∧ (l.parameter.isSome = true → l.command.isSome = true)

/-! ### Refusals -/

/-- The name that is declared is an integer. -/
def NamesDecimal (items : List Token) : Prop := ∃ name rest, Opens items name rest ∧ ¬IsName name

/-- The word of an address, the first among proper clauses, is no integer of 64 bits. -/
def HasBadAddress (items : List Token) : Prop :=
  ∃ name front value w back, Opens items name (front ++ .addressMark :: .word w :: back) ∧ IsName name ∧
    Clauses front none value ∧ ∀ a : Word, ¬Decimal.Writes w.toList a.toInt

/-- The word of a value, the first among proper clauses, is no integer of 64 bits. -/
def HasBadValue (items : List Token) : Prop :=
  ∃ name front address w back, Opens items name (front ++ .valueMark :: .word w :: back) ∧ IsName name ∧
    Clauses front address none ∧ ∀ v : Word, ¬Decimal.Writes w.toList v.toInt

/-- A colon stands anywhere but directly after a word at the start. -/
def HasStrayColon (items : List Token) : Prop :=
  ∃ n, items[n]? = some .colon ∧ ¬(n = 1 ∧ ∃ w, items[0]? = some (.word w))

/-- What the items of a line say, comments left out, or why they say nothing. -/
inductive Verdict (items : List Token) : Except LineError Statement → Prop where
  | invalidSymbol (h : .stray ∈ items) : Verdict items (.error .invalidSymbol)
  | empty (h : items = []) : Verdict items (.ok .empty)
  | declares {d : AliasDeclaration} (h : DeclaresAlias items d) : Verdict items (.ok (.alias d))
  | aliasNameIsDecimal (hstray : .stray ∉ items) (h : NamesDecimal items) :
    Verdict items (.error .aliasNameIsDecimal)
  | invalidAliasAddress (hstray : .stray ∉ items) (h : HasBadAddress items) :
    Verdict items (.error .invalidAliasAddress)
  | invalidAliasValue (hstray : .stray ∉ items) (h : HasBadValue items) : Verdict items (.error .invalidAliasValue)
  | malformedAlias (hstray : .stray ∉ items) (hhash : .hash ∈ items) (h : ∀ d, ¬DeclaresAlias items d)
    (hname : ¬NamesDecimal items) (haddress : ¬HasBadAddress items) (hvalue : ¬HasBadValue items) :
    Verdict items (.error .malformedAlias)
  | code {l : CodeLine} (hne : items ≠ []) (h : IsCode items l) : Verdict items (.ok (.code l))
  | malformedLabel (hstray : .stray ∉ items) (hhash : .hash ∉ items) (h : HasStrayColon items) :
    Verdict items (.error .malformedLabel)
  | unexpectedMark (hstray : .stray ∉ items) (hhash : .hash ∉ items) (hcolon : ¬HasStrayColon items)
    (h : .addressMark ∈ items ∨ .valueMark ∈ items) : Verdict items (.error .unexpectedMark)
  | tooManyWords (hstray : .stray ∉ items) (hhash : .hash ∉ items) (hcolon : ¬HasStrayColon items)
    (haddress : .addressMark ∉ items) (hvalue : .valueMark ∉ items) (h : ∀ l, ¬IsCode items l) :
    Verdict items (.error .tooManyWords)

/-! ### Clauses -/

namespace AliasDeclaration

section Clauses
variable {d : AliasDeclaration} {w : String} {rest : List Token}

theorem readClauses_address {a : Word} (hd : d.address = none) (h : Decimal.Writes w.toList a.toInt) :
    readClauses d (.addressMark :: .word w :: rest) = readClauses { d with address := some a } rest := by
  rw [readClauses, hd, Word.ofDecimal?_eq_some_iff.mpr h]
  rfl

theorem readClauses_value {v : Word} (hd : d.value = none) (h : Decimal.Writes w.toList v.toInt) :
    readClauses d (.valueMark :: .word w :: rest) = readClauses { d with value := some v } rest := by
  rw [readClauses, hd, Word.ofDecimal?_eq_some_iff.mpr h]
  rfl

theorem readClauses_badAddress (hd : d.address = none) (h : ∀ a : Word, ¬Decimal.Writes w.toList a.toInt) :
    readClauses d (.addressMark :: .word w :: rest) = .error .invalidAliasAddress := by
  rw [readClauses, hd, Word.ofDecimal?_eq_none_iff.mpr h]
  rfl

theorem readClauses_badValue (hd : d.value = none) (h : ∀ v : Word, ¬Decimal.Writes w.toList v.toInt) :
    readClauses d (.valueMark :: .word w :: rest) = .error .invalidAliasValue := by
  rw [readClauses, hd, Word.ofDecimal?_eq_none_iff.mpr h]
  rfl

/-- Proper clauses are read one after the other, up to whatever follows them. -/
theorem readClauses_append {front : List Token} {address value : Option Word} (h : Clauses front address value)
    (ha : d.address = none ∨ address = none) (hv : d.value = none ∨ value = none) (back : List Token) :
    readClauses d (front ++ back) =
      readClauses { d with address := d.address.or address, value := d.value.or value } back := by
  induction h generalizing d with
  | nil => simp
  | address h hrest ih =>
    have hd : d.address = none := ha.resolve_right (Option.some_ne_none _)
    rw [List.cons_append, List.cons_append, readClauses_address hd h, ih (d := { d with address := some _ }) (.inr rfl) hv]
    simp [hd]
  | value h hrest ih =>
    have hd : d.value = none := hv.resolve_right (Option.some_ne_none _)
    rw [List.cons_append, List.cons_append, readClauses_value hd h, ih (d := { d with value := some _ }) ha (.inr rfl)]
    simp [hd]

/-- Reading clauses takes in all of them, or stops at the first that is not proper. -/
theorem readClauses_cases (d : AliasDeclaration) (items : List Token) :
    (∃ address value, Clauses items address value ∧ (d.address = none ∨ address = none) ∧
      (d.value = none ∨ value = none)) ∨
    (∃ front value w back, items = front ++ .addressMark :: .word w :: back ∧ Clauses front none value ∧
      (d.value = none ∨ value = none) ∧ d.address = none ∧ ∀ a : Word, ¬Decimal.Writes w.toList a.toInt) ∨
    (∃ front address w back, items = front ++ .valueMark :: .word w :: back ∧ Clauses front address none ∧
      (d.address = none ∨ address = none) ∧ d.value = none ∧ ∀ v : Word, ¬Decimal.Writes w.toList v.toInt) ∨
    readClauses d items = .error .malformedAlias := by
  fun_induction readClauses d items with
  | case1 d => exact .inl ⟨none, none, .nil, .inr rfl, .inr rfl⟩
  | case2 d w rest haddress => exact .inr (.inr (.inr rfl))
  | case3 d w rest haddress hw =>
    have hd : d.address = none := by simpa using haddress
    exact .inr (.inl ⟨[], none, w, rest, rfl, .nil, .inr rfl, hd, Word.ofDecimal?_eq_none_iff.mp hw⟩)
  | case4 d w rest haddress a hw ih =>
    have hd : d.address = none := by simpa using haddress
    have hwrites := Word.ofDecimal?_eq_some_iff.mp hw
    -- the clauses that follow have no address, since `d` has one by then
    rcases ih with ⟨address, value, h, ha, hv⟩ | ⟨_, _, _, _, -, -, -, ha, -⟩ |
        ⟨front, address, w', back, rfl, h, ha, hv, hbad⟩ | h
    · obtain rfl : address = none := ha.resolve_left (Option.some_ne_none a)
      exact .inl ⟨some a, value, .address hwrites h, .inl hd, hv⟩
    · cases ha
    · obtain rfl : address = none := ha.resolve_left (Option.some_ne_none a)
      exact .inr (.inr (.inl ⟨_, some a, w', back, rfl, .address hwrites h, .inl hd, hv, hbad⟩))
    · exact .inr (.inr (.inr h))
  | case5 d w rest hvalue => exact .inr (.inr (.inr rfl))
  | case6 d w rest hvalue hw =>
    have hd : d.value = none := by simpa using hvalue
    exact .inr (.inr (.inl ⟨[], none, w, rest, rfl, .nil, .inr rfl, hd, Word.ofDecimal?_eq_none_iff.mp hw⟩))
  | case7 d w rest hvalue v hw ih =>
    have hd : d.value = none := by simpa using hvalue
    have hwrites := Word.ofDecimal?_eq_some_iff.mp hw
    rcases ih with ⟨address, value, h, ha, hv⟩ | ⟨front, value, w', back, rfl, h, hv, ha, hbad⟩ |
        ⟨_, _, _, _, -, -, -, hv, -⟩ | h
    · obtain rfl : value = none := hv.resolve_left (Option.some_ne_none v)
      exact .inl ⟨address, some v, .value hwrites h, ha, .inl hd⟩
    · obtain rfl : value = none := hv.resolve_left (Option.some_ne_none v)
      exact .inr (.inl ⟨_, some v, w', back, rfl, .value hwrites h, .inl hd, ha, hbad⟩)
    · cases hv
    · exact .inr (.inr (.inr h))
  | case8 items d => exact .inr (.inr (.inr rfl))

end Clauses

/-! ### Alias declarations -/

theorem isDecimal_eq_false_iff {name : String} : Decimal.isDecimal name = false ↔ IsName name := by
  rw [← Bool.not_eq_true, Decimal.isDecimal_iff, not_exists, IsName]

section Read
variable {items rest : List Token} {name : String} {d : AliasDeclaration}

theorem read_of_opens (h : Opens items name rest) :
    read items = if Decimal.isDecimal name then .error .aliasNameIsDecimal else readClauses { name } rest := by
  obtain ⟨hkeyword⟩ := h
  rw [read, hkeyword]
  rfl

theorem read_of_isName (h : Opens items name rest) (hname : IsName name) :
    read items = readClauses { name } rest := by
  rw [read_of_opens h, isDecimal_eq_false_iff.mpr hname]
  rfl

theorem read_of_not_opens (h : ∀ name rest, ¬Opens items name rest) : read items = .error .malformedAlias := by
  unfold read
  split
  · next keyword name rest =>
    cases hkeyword : Text.eqIgnoreAsciiCase keyword "alias" with
    | false => rfl
    | true => exact absurd (.mk hkeyword) (h name rest)
  · rfl

theorem read_of_declaresAlias (h : DeclaresAlias items d) : read items = .ok d := by
  obtain ⟨rest, hopens, hname, hclauses⟩ := h
  have hread := readClauses_append (d := { name := d.name }) hclauses (.inl rfl) (.inl rfl) []
  rw [List.append_nil] at hread
  rw [read_of_isName hopens hname, hread]
  simp [readClauses]

theorem read_of_namesDecimal (h : NamesDecimal items) : read items = .error .aliasNameIsDecimal := by
  obtain ⟨name, rest, hopens, hname⟩ := h
  have hdecimal : Decimal.isDecimal name = true := by
    rwa [← isDecimal_eq_false_iff, Bool.not_eq_false] at hname
  rw [read_of_opens hopens, hdecimal]
  rfl

theorem read_of_hasBadAddress (h : HasBadAddress items) : read items = .error .invalidAliasAddress := by
  obtain ⟨name, front, value, w, back, hopens, hname, hclauses, hbad⟩ := h
  rw [read_of_isName hopens hname, readClauses_append hclauses (.inr rfl) (.inl rfl)]
  exact readClauses_badAddress rfl hbad

theorem read_of_hasBadValue (h : HasBadValue items) : read items = .error .invalidAliasValue := by
  obtain ⟨name, front, value, w, back, hopens, hname, hclauses, hbad⟩ := h
  rw [read_of_isName hopens hname, readClauses_append hclauses (.inl rfl) (.inr rfl)]
  exact readClauses_badValue rfl hbad

theorem read_cases (items : List Token) : (∃ d, DeclaresAlias items d) ∨ NamesDecimal items ∨ HasBadAddress items ∨
    HasBadValue items ∨ read items = .error .malformedAlias := by
  by_cases hopens : ∃ name rest, Opens items name rest
  · obtain ⟨name, rest, hopens⟩ := hopens
    by_cases hname : IsName name
    · rcases readClauses_cases { name } rest with ⟨address, value, h, -, -⟩ |
          ⟨front, value, w, back, rfl, h, -, -, hbad⟩ | ⟨front, address, w, back, rfl, h, -, -, hbad⟩ | h
      · exact .inl ⟨⟨name, address, value⟩, rest, hopens, hname, h⟩
      · exact .inr (.inr (.inl ⟨name, front, value, w, back, hopens, hname, h, hbad⟩))
      · exact .inr (.inr (.inr (.inl ⟨name, front, address, w, back, hopens, hname, h, hbad⟩)))
      · exact .inr (.inr (.inr (.inr ((read_of_isName hopens hname).trans h))))
    · exact .inr (.inl ⟨name, rest, hopens, hname⟩)
  · simp only [not_exists] at hopens
    exact .inr (.inr (.inr (.inr (read_of_not_opens hopens))))

end Read

end AliasDeclaration

/-! ### Code -/

namespace Token
variable {items : List Token}

theorem mapM_word?_cons (t : Token) : (t :: items).mapM word? = t.word?.bind fun w => (items.mapM word?).map (w :: ·) := by
  rw [List.mapM_cons]
  cases t.word? <;> cases items.mapM word? <;> rfl

theorem mapM_word?_eq_some_iff {words : List String} : items.mapM word? = some words ↔ items = words.map .word := by
  induction items generalizing words with
  | nil => cases words <;> simp
  | cons t items ih =>
    rw [mapM_word?_cons]
    cases t with
    | word w => cases words <;> simp [word?, ih, and_assoc, and_comm]
    | comment | hash | colon | addressMark | valueMark | stray => cases words <;> simp [word?]

theorem mapM_word?_eq_none_iff : items.mapM word? = none ↔ ∃ t ∈ items, t.word? = none := by
  induction items with
  | nil => simp
  | cons t items ih =>
    rw [mapM_word?_cons]
    cases t with
    | word w => simpa [word?] using ih
    | comment | hash | colon | addressMark | valueMark | stray => simp [word?]

end Token

namespace CodeLine

section Read
variable {items : List Token} {l : CodeLine}

theorem eq_append_splitLabel (items : List Token) :
    items = ((splitLabel items).1.elim [] fun label => [.word label, .colon]) ++ (splitLabel items).2 := by
  unfold splitLabel
  split <;> rfl

theorem hasStrayColon_iff : HasStrayColon items ↔ .colon ∈ (splitLabel items).2 := by
  unfold splitLabel
  split
  · next label rest =>
    constructor
    · rintro ⟨n, hn, hplace⟩
      rcases n with _ | _ | n
      · cases hn
      · exact absurd ⟨rfl, label, rfl⟩ hplace
      · exact List.mem_of_getElem? (i := n) hn
    · intro h
      obtain ⟨n, hn⟩ := List.getElem?_of_mem h
      exact ⟨n + 2, hn, fun hplace => absurd hplace.1 (by omega)⟩
  · next hlabel =>
    constructor
    · rintro ⟨n, hn, -⟩
      exact List.mem_of_getElem? hn
    · intro h
      obtain ⟨n, hn⟩ := List.getElem?_of_mem h
      refine ⟨n, hn, ?_⟩
      rintro ⟨rfl, w, hw⟩
      obtain ⟨rest, rfl⟩ : ∃ rest, items = .word w :: .colon :: rest := by
        rcases items with _ | ⟨first, _ | ⟨second, rest⟩⟩ <;> simp_all
      exact hlabel w rest rfl

theorem read_of_hasStrayColon (h : HasStrayColon items) : read items = .error .malformedLabel := by
  rw [read]
  exact if_pos (hasStrayColon_iff.mp h)

theorem read_of_isCode (h : IsCode items l) : read items = .ok l := by
  obtain ⟨rfl, hparameter⟩ := h
  obtain ⟨label, command, parameter⟩ := l
  cases command with
  | none =>
    obtain rfl : parameter = none := by simpa using hparameter
    cases label <;> rfl
  | some command => cases label <;> cases parameter <;> rfl

/-- An item that is neither a word nor a colon stands behind the label. -/
theorem read_of_mem {t : Token} (hcolon : ¬HasStrayColon items) (ht : t ∈ items) (hword : t.word? = none)
    (hne : t ≠ .colon) : read items = .error .unexpectedMark := by
  rw [hasStrayColon_iff] at hcolon
  have hmem : t ∈ (splitLabel items).2 := by
    rw [eq_append_splitLabel items] at ht
    refine (List.mem_append.mp ht).resolve_left fun hlabel => ?_
    cases hfirst : (splitLabel items).1 with
    | none => simp [hfirst] at hlabel
    | some label =>
      obtain rfl : t = .word label := by simpa [hfirst, hne] using hlabel
      cases hword
  simp only [read, if_neg hcolon, Token.mapM_word?_eq_none_iff.mpr ⟨t, hmem, hword⟩]

theorem exists_isCode (label : Option String) (words : List String) (h : words.length ≤ 2) :
    ∃ l, IsCode ((label.elim [] fun label => [.word label, .colon]) ++ words.map .word) l := by
  match words with
  | [] => exact ⟨⟨label, none, none⟩, by simp [CodeLine.items], by simp⟩
  | [command] => exact ⟨⟨label, command, none⟩, by simp [CodeLine.items], by simp⟩
  | [command, parameter] => exact ⟨⟨label, command, parameter⟩, by simp [CodeLine.items], by simp⟩
  | _ :: _ :: _ :: _ => simp at h

theorem read_cases (items : List Token) : (∃ l, IsCode items l) ∨ HasStrayColon items ∨
    (∃ t ∈ items, t.word? = none ∧ t ≠ .colon) ∨ read items = .error .tooManyWords := by
  by_cases hcolon : HasStrayColon items
  · exact .inr (.inl hcolon)
  have hsplit := eq_append_splitLabel items
  rw [hasStrayColon_iff] at hcolon
  cases hwords : (splitLabel items).2.mapM Token.word? with
  | none =>
    obtain ⟨t, ht, hword⟩ := Token.mapM_word?_eq_none_iff.mp hwords
    refine .inr (.inr (.inl ⟨t, ?_, hword, ne_of_mem_of_not_mem ht hcolon⟩))
    rw [hsplit]
    exact List.mem_append_right _ ht
  | some words =>
    rw [Token.mapM_word?_eq_some_iff.mp hwords] at hsplit
    by_cases hlength : words.length ≤ 2
    · rw [hsplit]
      exact .inl (exists_isCode _ words hlength)
    · obtain ⟨_, _, _, _, rfl⟩ : ∃ first second third rest, words = first :: second :: third :: rest := by
        rcases words with _ | ⟨first, _ | ⟨second, _ | ⟨third, rest⟩⟩⟩
        iterate 3 exact absurd (by simp) hlength
        exact ⟨first, second, third, rest, rfl⟩
      refine .inr (.inr (.inr ?_))
      simp only [read, if_neg hcolon, hwords]

end Read

end CodeLine

/-! ### Verdicts -/

section Verdicts
variable {items rest : List Token} {name : String}

theorem Opens.hash_mem (h : Opens items name rest) : .hash ∈ items := by
  cases h
  exact List.mem_cons_self

theorem Opens.name_mem (h : Opens items name rest) : .word name ∈ items := by
  cases h
  simp

theorem Opens.stray_notMem (h : Opens items name rest) (hrest : .stray ∉ rest) : .stray ∉ items := by
  cases h
  simpa using hrest

theorem Clauses.stray_notMem {address value : Option Word} (h : Clauses items address value) : .stray ∉ items := by
  induction h with
  | nil => simp
  | address h hrest ih => simpa using ih
  | value h hrest ih => simpa using ih

theorem DeclaresAlias.hash_mem {d : AliasDeclaration} (h : DeclaresAlias items d) : .hash ∈ items := by
  obtain ⟨rest, hopens, -⟩ := h
  exact hopens.hash_mem

theorem DeclaresAlias.stray_notMem {d : AliasDeclaration} (h : DeclaresAlias items d) : .stray ∉ items := by
  obtain ⟨rest, hopens, -, hclauses⟩ := h
  exact hopens.stray_notMem hclauses.stray_notMem

theorem NamesDecimal.hash_mem (h : NamesDecimal items) : .hash ∈ items := by
  obtain ⟨name, rest, hopens, -⟩ := h
  exact hopens.hash_mem

theorem HasBadAddress.hash_mem (h : HasBadAddress items) : .hash ∈ items := by
  obtain ⟨name, front, value, w, back, hopens, -⟩ := h
  exact hopens.hash_mem

theorem HasBadValue.hash_mem (h : HasBadValue items) : .hash ∈ items := by
  obtain ⟨name, front, address, w, back, hopens, -⟩ := h
  exact hopens.hash_mem

theorem HasStrayColon.ne_nil (h : HasStrayColon items) : items ≠ [] := by
  rintro rfl
  obtain ⟨n, hn, -⟩ := h
  cases hn

theorem CodeLine.eq_of_mem_items {l : CodeLine} {t : Token} (h : t ∈ l.items) : t = .colon ∨ ∃ w, t = .word w := by
  obtain ⟨label, command, parameter⟩ := l
  cases label <;> cases command <;> cases parameter <;> simp [CodeLine.items] at h <;> grind

theorem CodeLine.word_mem_items {l : CodeLine} {w : String} (h : some w ∈ [l.label, l.command, l.parameter]) :
    .word w ∈ l.items := by
  obtain ⟨label, command, parameter⟩ := l
  simp only [List.mem_cons, List.not_mem_nil, or_false] at h
  rcases h with rfl | rfl | rfl
  · exact List.mem_append_left _ (List.mem_append_left _ List.mem_cons_self)
  · exact List.mem_append_left _ (List.mem_append_right _ List.mem_cons_self)
  · exact List.mem_append_right _ List.mem_cons_self

theorem IsCode.items_eq_nil_iff {l : CodeLine} (h : IsCode items l) :
    items = [] ↔ ¬(l.label.isSome = true ∨ l.command.isSome = true) := by
  obtain ⟨rfl, hparameter⟩ := h
  obtain ⟨label, command, parameter⟩ := l
  cases label <;> cases command <;> cases parameter <;> simp_all [CodeLine.items]

theorem IsCode.notMem {l : CodeLine} {t : Token} (h : IsCode items l) (hcolon : t ≠ .colon)
    (hword : t.word? = none) : t ∉ items := by
  intro ht
  rw [h.1] at ht
  rcases CodeLine.eq_of_mem_items ht with rfl | ⟨w, rfl⟩
  · exact hcolon rfl
  · cases hword

/-- Besides words and colons, a line without comment, `#` or stray slash has only the marks of clauses. -/
theorem CodeLine.mark_mem {t : Token} (hcomment : ∀ text, .comment text ∉ items) (hstray : .stray ∉ items)
    (hhash : .hash ∉ items) (ht : t ∈ items) (hword : t.word? = none) (hne : t ≠ .colon) :
    .addressMark ∈ items ∨ .valueMark ∈ items := by
  cases t with
  | word => cases hword
  | comment text => exact absurd ht (hcomment text)
  | colon => exact absurd rfl hne
  | hash => exact absurd ht hhash
  | addressMark => exact .inl ht
  | valueMark => exact .inr ht
  | stray => exact absurd ht hstray

theorem CodeLine.read_of_mark (hcolon : ¬HasStrayColon items) (h : .addressMark ∈ items ∨ .valueMark ∈ items) :
    CodeLine.read items = .error .unexpectedMark :=
  h.elim (read_of_mem hcolon · rfl (by simp)) (read_of_mem hcolon · rfl (by simp))

namespace Statement

theorem read_of_hash (h : .hash ∈ items) : read items = .alias <$> AliasDeclaration.read items := by
  rw [read, if_neg (by simpa using List.ne_nil_of_mem h), if_pos h]

theorem read_of_no_hash (hne : items ≠ []) (h : .hash ∉ items) : read items = .code <$> CodeLine.read items := by
  rw [read, if_neg (by simpa using hne), if_neg h]

theorem exists_read_of_isCode {l : CodeLine} (h : IsCode items l) : ∃ s, read items = .ok s := by
  by_cases hne : items = []
  · exact ⟨.empty, by rw [hne]; rfl⟩
  · refine ⟨.code l, ?_⟩
    rw [read_of_no_hash hne (h.notMem (by simp) rfl), CodeLine.read_of_isCode h]
    rfl

section Unstray
variable (hstray : .stray ∉ items)
include hstray

theorem read_alias_eq {r : Except LineError AliasDeclaration} (hhash : .hash ∈ items)
    (h : AliasDeclaration.read items = r) :
    (if .stray ∈ items then .error .invalidSymbol else read items) = .alias <$> r := by
  rw [if_neg hstray, read_of_hash hhash, h]

theorem read_code_eq {r : Except LineError CodeLine} (hne : items ≠ []) (hhash : .hash ∉ items)
    (h : CodeLine.read items = r) :
    (if .stray ∈ items then .error .invalidSymbol else read items) = .code <$> r := by
  rw [if_neg hstray, read_of_no_hash hne hhash, h]

end Unstray

/-- The first reason that applies is the one that is given. -/
theorem read_of_verdict {r : Except LineError Statement} (hcomment : ∀ text, .comment text ∉ items)
    (h : Verdict items r) : (if .stray ∈ items then .error .invalidSymbol else read items) = r := by
  cases h with
  | invalidSymbol h => exact if_pos h
  | empty h => rw [h]; rfl
  | declares h => exact read_alias_eq h.stray_notMem h.hash_mem (AliasDeclaration.read_of_declaresAlias h)
  | aliasNameIsDecimal hstray h => exact read_alias_eq hstray h.hash_mem (AliasDeclaration.read_of_namesDecimal h)
  | invalidAliasAddress hstray h => exact read_alias_eq hstray h.hash_mem (AliasDeclaration.read_of_hasBadAddress h)
  | invalidAliasValue hstray h => exact read_alias_eq hstray h.hash_mem (AliasDeclaration.read_of_hasBadValue h)
  | malformedAlias hstray hhash h hname haddress hvalue =>
    -- this reason has no form of its own: it is what is left when no other applies
    rcases AliasDeclaration.read_cases items with ⟨d, hd⟩ | hbad | hbad | hbad | hread
    · exact absurd hd (h d)
    · exact absurd hbad hname
    · exact absurd hbad haddress
    · exact absurd hbad hvalue
    · exact read_alias_eq hstray hhash hread
  | code hne h =>
    exact read_code_eq (h.notMem (by simp) rfl) hne (h.notMem (by simp) rfl) (CodeLine.read_of_isCode h)
  | malformedLabel hstray hhash h => exact read_code_eq hstray h.ne_nil hhash (CodeLine.read_of_hasStrayColon h)
  | unexpectedMark hstray hhash hcolon h =>
    have hne : items ≠ [] := h.elim List.ne_nil_of_mem List.ne_nil_of_mem
    exact read_code_eq hstray hne hhash (CodeLine.read_of_mark hcolon h)
  | tooManyWords hstray hhash hcolon haddress hvalue h =>
    have hne : items ≠ [] := fun hnil => h {} ⟨hnil, nofun⟩
    rcases CodeLine.read_cases items with ⟨l, hl⟩ | hbad | ⟨t, ht, hword, hne⟩ | hread
    · exact absurd hl (h l)
    · exact absurd hbad hcolon
    · rcases CodeLine.mark_mem hcomment hstray hhash ht hword hne with hmark | hmark
      · exact absurd hmark haddress
      · exact absurd hmark hvalue
    · exact read_code_eq hstray hne hhash hread

theorem verdict_of_hash (hstray : .stray ∉ items) (hhash : .hash ∈ items) :
    Verdict items (.alias <$> AliasDeclaration.read items) := by
  rcases AliasDeclaration.read_cases items with ⟨d, h⟩ | h | h | h | h
  · rw [AliasDeclaration.read_of_declaresAlias h]
    exact .declares h
  · rw [AliasDeclaration.read_of_namesDecimal h]
    exact .aliasNameIsDecimal hstray h
  · rw [AliasDeclaration.read_of_hasBadAddress h]
    exact .invalidAliasAddress hstray h
  · rw [AliasDeclaration.read_of_hasBadValue h]
    exact .invalidAliasValue hstray h
  · rw [h]
    refine .malformedAlias hstray hhash (fun d hd => ?_) (fun hbad => ?_) (fun hbad => ?_) fun hbad => ?_
    · cases h.symm.trans (AliasDeclaration.read_of_declaresAlias hd)
    · cases h.symm.trans (AliasDeclaration.read_of_namesDecimal hbad)
    · cases h.symm.trans (AliasDeclaration.read_of_hasBadAddress hbad)
    · cases h.symm.trans (AliasDeclaration.read_of_hasBadValue hbad)

theorem verdict_of_no_hash (hcomment : ∀ text, .comment text ∉ items) (hstray : .stray ∉ items) (hne : items ≠ [])
    (hhash : .hash ∉ items) : Verdict items (.code <$> CodeLine.read items) := by
  by_cases hcolon : HasStrayColon items
  · rw [CodeLine.read_of_hasStrayColon hcolon]
    exact .malformedLabel hstray hhash hcolon
  by_cases hmark : .addressMark ∈ items ∨ .valueMark ∈ items
  · rw [CodeLine.read_of_mark hcolon hmark]
    exact .unexpectedMark hstray hhash hcolon hmark
  rcases CodeLine.read_cases items with ⟨l, h⟩ | h | ⟨t, ht, hword, hne⟩ | h
  · rw [CodeLine.read_of_isCode h]
    exact .code hne h
  · exact absurd h hcolon
  · exact absurd (CodeLine.mark_mem hcomment hstray hhash ht hword hne) hmark
  · rw [h]
    refine .tooManyWords hstray hhash hcolon (not_or.mp hmark).1 (not_or.mp hmark).2 fun l hl => ?_
    cases h.symm.trans (CodeLine.read_of_isCode hl)

/-- Reading comes to a verdict, and to no other. -/
theorem read_eq_iff_verdict {r : Except LineError Statement} (hcomment : ∀ text, .comment text ∉ items) :
    (if .stray ∈ items then .error .invalidSymbol else read items) = r ↔ Verdict items r := by
  refine ⟨?_, read_of_verdict hcomment⟩
  rintro rfl
  by_cases hstray : .stray ∈ items
  · rw [if_pos hstray]
    exact .invalidSymbol hstray
  rw [if_neg hstray]
  by_cases hne : items = []
  · rw [hne]
    exact .empty rfl
  by_cases hhash : .hash ∈ items
  · rw [read_of_hash hhash]
    exact verdict_of_hash hstray hhash
  · rw [read_of_no_hash hne hhash]
    exact verdict_of_no_hash hcomment hstray hne hhash

end Statement

end Verdicts

namespace Line

theorem comment_notMem_code (items : List Token) (text : String) : .comment text ∉ code items := by
  simp [code]

theorem mem_code_iff {items : List Token} {t : Token} (h : ∀ text, t ≠ .comment text) :
    t ∈ code items ↔ t ∈ items := by
  rw [code, List.mem_filter, and_iff_left_iff_imp]
  intro _
  cases t with
  | comment text => exact absurd rfl (h text)
  | word | hash | colon | addressMark | valueMark | stray => rfl

theorem code_eq_self {items : List Token} (h : ∀ text, .comment text ∉ items) : code items = items := by
  refine List.filter_eq_self.mpr fun t ht => ?_
  cases t with
  | comment text => exact absurd ht (h text)
  | word | hash | colon | addressMark | valueMark | stray => rfl

theorem commentOf_eq_none {items : List Token} (h : ∀ text, .comment text ∉ items) : commentOf items = none := by
  rw [commentOf, List.getLast?_eq_none_iff, List.filterMap_eq_nil_iff]
  intro t ht
  cases t with
  | comment text => exact absurd ht (h text)
  | word | hash | colon | addressMark | valueMark | stray => rfl

theorem code_append_comment {items : List Token} (h : ∀ text, .comment text ∉ items) (text : String) :
    code (items ++ [.comment text]) = items := by
  have hitems := code_eq_self h
  rw [code] at hitems
  rw [code, List.filter_append, hitems]
  exact List.append_nil items

theorem commentOf_append_comment (items : List Token) (text : String) :
    commentOf (items ++ [.comment text]) = some text := by
  rw [commentOf, List.filterMap_append]
  exact List.getLast?_concat

theorem map_statement_read (line : String) : (read line).map (·.statement) =
    if .stray ∈ code ((Lexeme.scan line).map (·.token)) then .error .invalidSymbol
    else Statement.read (code ((Lexeme.scan line).map (·.token))) := by
  simp only [read, mem_code_iff (t := .stray) (by simp)]
  split
  · rfl
  · cases Statement.read (code ((Lexeme.scan line).map (·.token))) <;> rfl

/-- A line says what its items say by the grammar, its comments left out, and is refused if they are not in it. -/
theorem read_statement_iff (line : String) (r : Except LineError Statement) :
    (read line).map (·.statement) = r ↔ Verdict (code ((Lexeme.scan line).map (·.token))) r := by
  rw [map_statement_read]
  exact Statement.read_eq_iff_verdict (comment_notMem_code _)

theorem comment_of_read {line : String} {l : Line} (h : read line = .ok l) :
    l.comment = commentOf ((Lexeme.scan line).map (·.token)) := by
  rw [read] at h
  split at h
  · cases h
  · cases hread : Statement.read (code ((Lexeme.scan line).map (·.token))) with
    | error e => rw [hread] at h; cases h
    | ok s =>
      rw [hread] at h
      cases h
      rfl

theorem verdict_of_read {line : String} {l : Line} (h : read line = .ok l) :
    Verdict (code ((Lexeme.scan line).map (·.token))) (.ok l.statement) := by
  rw [← Statement.read_eq_iff_verdict (comment_notMem_code _), ← map_statement_read, h]
  rfl

end Line

end Mac1
