import Mac1.Proofs.Line.Respacing

/-! Printing statements. What a statement is printed as is read as that statement, if it is one that a line can make at
    all; and these are the ones whose parts are words, with no name that is an integer and no parameter
    without a command. -/

namespace Mac1

/-- A statement that a line can make. -/
inductive Statement.Legal : Statement → Prop where
  | empty : Legal .empty
  | declares {d : AliasDeclaration} (hword : d.name.toList ≠ [] ∧ ∀ c ∈ d.name.toList, c ∉ Token.separators)
    (hname : IsName d.name) : Legal (.alias d)
  | code {l : CodeLine} (hwords : ∀ w, some w ∈ [l.label, l.command, l.parameter] →
      w.toList ≠ [] ∧ ∀ c ∈ w.toList, c ∉ Token.separators)
    (hpresent : l.label.isSome = true ∨ l.command.isSome = true)
    (hparameter : l.parameter.isSome = true → l.command.isSome = true) : Legal (.code l)

/-! ### Pieces -/

/-- How an alias declaration is printed. -/
def AliasDeclaration.pieces (d : AliasDeclaration) : List Piece :=
  [⟨[], .hash⟩, ⟨[], .word "alias"⟩, ⟨[' '], .word d.name⟩] ++
    (d.address.elim [] fun a => [⟨[' '], .addressMark⟩, ⟨[], .word a.render⟩]) ++
    d.value.elim [] fun v => [⟨[' '], .valueMark⟩, ⟨[], .word v.render⟩]

/-- How a line of code is printed. -/
def CodeLine.pieces (l : CodeLine) : List Piece :=
  (l.label.elim [] fun label => [⟨[], .word label⟩, ⟨[], .colon⟩]) ++
    (l.command.toList.map fun command => ⟨if l.label.isSome then [' '] else [], .word command⟩) ++
    l.parameter.toList.map fun parameter => ⟨[' '], .word parameter⟩

/-- How a statement is printed. -/
def Statement.pieces : Statement → List Piece
  | .empty => []
  | .alias d => d.pieces
  | .code l => l.pieces

theorem Decimal.Writes.isWord {w : String} {n : Int} (h : Writes w.toList n) : Token.IsWord w := by
  have hdigit : ∀ c : Char, c.isDigit = true → c ∉ Token.separators := by
    intro c hc hmem
    simp only [Token.separators, List.mem_cons, List.not_mem_nil, or_false] at hmem
    rcases hmem with rfl | rfl | rfl | rfl | rfl | rfl | rfl | rfl | rfl | rfl | rfl <;> cases hc
  rw [Token.isWord_iff]
  generalize w.toList = cs at h
  cases h with
  | unsigned h => exact ⟨h.nonempty, fun c hc => hdigit c (h.digits c hc)⟩
  | plus h | minus h =>
    refine ⟨List.cons_ne_nil _ _, fun c hc => ?_⟩
    rcases List.mem_cons.mp hc with rfl | hc
    · decide
    · exact hdigit c (h.digits c hc)

theorem Word.writes_render (w : Word) : Decimal.Writes w.render.toList w.toInt :=
  ofDecimal?_eq_some_iff.mp (ofDecimal?_render w)

namespace AliasDeclaration

theorem toList_render (d : AliasDeclaration) : d.render.toList = Piece.spelling d.pieces := by
  obtain ⟨name, address, value⟩ := d
  have hkeyword : "#alias ".toList = '#' :: "alias".toList ++ [' '] := by decide
  cases address <;> cases value <;>
    simp [render, pieces, Piece.spelling, Piece.chars, Token.text, hkeyword]

theorem proper_pieces {d : AliasDeclaration} (h : Token.IsWord d.name) : Piece.Proper d.pieces := by
  have hnumber : ∀ w : Word, Token.IsWord w.render := fun w => w.writes_render.isWord
  have hkeyword : Token.IsWord "alias" := Token.isWord_of_all (by decide)
  obtain ⟨name, address, value⟩ := d
  refine ⟨?_, ?_, ?_⟩
  · cases address <;> cases value <;> simp [pieces, Text.isBlank]
  · cases address <;> cases value <;> simp [pieces, Piece.IsPlain, hnumber, hkeyword, h]
  · cases address <;> cases value <;> simp [pieces, Token.word?]

theorem declaresAlias_pieces {d : AliasDeclaration} (h : IsName d.name) :
    DeclaresAlias (d.pieces.map (·.token)) d := by
  obtain ⟨name, address, value⟩ := d
  refine ⟨_, .mk (by decide), h, ?_⟩
  cases address with
  | none =>
    cases value with
    | none => exact .nil
    | some v => exact .value v.writes_render .nil
  | some a =>
    cases value with
    | none => exact .address a.writes_render .nil
    | some v => exact .address a.writes_render (.value v.writes_render .nil)

end AliasDeclaration

namespace CodeLine

theorem toList_render (l : CodeLine) : l.render.toList = Piece.spelling l.pieces := by
  obtain ⟨label, command, parameter⟩ := l
  cases label <;> cases command <;> cases parameter <;>
    simp [render, pieces, Piece.spelling, Piece.chars, Token.text]

theorem proper_pieces {l : CodeLine} (h : ∀ w, some w ∈ [l.label, l.command, l.parameter] → Token.IsWord w) :
    Piece.Proper l.pieces := by
  obtain ⟨label, command, parameter⟩ := l
  refine ⟨?_, ?_, ?_⟩
  · cases label <;> cases command <;> cases parameter <;> simp [pieces, Text.isBlank]
  · cases label <;> cases command <;> cases parameter <;> simp_all [pieces, Piece.IsPlain]
  · cases label <;> cases command <;> cases parameter <;> simp [pieces, Token.word?]

theorem isCode_pieces {l : CodeLine} (h : l.parameter.isSome = true → l.command.isSome = true) :
    IsCode (l.pieces.map (·.token)) l := by
  refine ⟨?_, h⟩
  obtain ⟨label, command, parameter⟩ := l
  cases label <;> cases command <;> cases parameter <;> rfl

end CodeLine

/-! ### Reading what is printed -/

theorem Piece.Proper.read_spelling {pieces : List Piece} {text : String} (h : Proper pieces)
    (htext : text.toList = spelling pieces) :
    Line.read text = (Statement.read (pieces.map (·.token))).map fun statement => { statement } := by
  obtain rfl : text = line pieces [] none := by
    rw [← String.toList_inj, htext]
    simp [line]
  exact h.read_line (by simp [IsGap]) (by simp)

namespace Statement

variable {s : Statement} {line : String} {comment : Option String}

theorem toList_render (s : Statement) : s.render.toList = Piece.spelling s.pieces := by
  cases s with
  | empty => rfl
  | «alias» d => exact d.toList_render
  | code l => exact l.toList_render

theorem Legal.proper_pieces (h : Legal s) : Piece.Proper s.pieces := by
  cases h with
  | empty => exact ⟨by simp [pieces], by simp [pieces], by simp [pieces]⟩
  | declares hword hname => exact AliasDeclaration.proper_pieces (Token.isWord_iff.mpr hword)
  | code hwords hpresent hparameter =>
    exact CodeLine.proper_pieces fun w hw => Token.isWord_iff.mpr (hwords w hw)

theorem Legal.read_pieces (h : Legal s) : read (s.pieces.map (·.token)) = .ok s := by
  cases h with
  | empty => rfl
  | declares hword hname =>
    have hdeclares := AliasDeclaration.declaresAlias_pieces hname
    rw [pieces, read_of_hash hdeclares.hash_mem, AliasDeclaration.read_of_declaresAlias hdeclares]
    rfl
  | @code l hwords hpresent hparameter =>
    have hcode := CodeLine.isCode_pieces hparameter
    have hne : l.pieces.map (·.token) ≠ [] := fun hnil => hcode.items_eq_nil_iff.mp hnil hpresent
    rw [pieces, read_of_no_hash hne (hcode.notMem (by simp) rfl), CodeLine.read_of_isCode hcode]
    rfl

theorem Legal.read_render (h : Legal s) : Line.read s.render = .ok ⟨s, none⟩ := by
  rw [h.proper_pieces.read_spelling s.toList_render, h.read_pieces]
  rfl

theorem isWord_of_mem_code (line : String) {w : String} (h : .word w ∈ Line.code ((Lexeme.scan line).map (·.token))) :
    w.toList ≠ [] ∧ ∀ c ∈ w.toList, c ∉ Token.separators := by
  obtain ⟨l, hl, hw⟩ := List.mem_map.mp ((Line.mem_code_iff (by simp)).mp h)
  obtain ⟨front, back, -, -, hfits⟩ := (Lexeme.tiles_scan line).placed l hl
  rw [hw] at hfits
  exact hfits.1

theorem legal_of_read (h : Line.read line = .ok ⟨s, comment⟩) : Legal s := by
  cases Line.verdict_of_read h with
  | empty => exact .empty
  | declares hdeclares =>
    obtain ⟨rest, hopens, hname, -⟩ := hdeclares
    exact .declares (isWord_of_mem_code line hopens.name_mem) hname
  | @code l hne hcode =>
    refine .code (fun w hw => isWord_of_mem_code line ?_) ?_ hcode.2
    · rw [hcode.1]
      exact CodeLine.word_mem_items hw
    · exact Decidable.not_not.mp (mt hcode.items_eq_nil_iff.mpr hne)

/-- Lines make exactly the legal statements, and each of these prints to a text that says it and holds no comment. -/
theorem print_and_read (s : Statement) : ((∃ line comment, Line.read line = .ok ⟨s, comment⟩) ↔ s.Legal) ∧
    (s.Legal → Line.read s.render = .ok ⟨s, none⟩) ∧
    ∀ line comment, Line.read line = .ok ⟨s, comment⟩ → Line.read s.render = .ok ⟨s, none⟩ := by
  refine ⟨⟨?_, fun h => ⟨_, _, h.read_render⟩⟩, fun h => h.read_render, fun line comment h => (legal_of_read h).read_render⟩
  rintro ⟨line, comment, h⟩
  exact legal_of_read h

end Statement

/-- The label of a line of code is a word. -/
theorem Line.isWord_of_label {text : String} {line : Line} {codeLine : CodeLine} {name : String}
    (h : Line.read text = .ok line) (hcode : line.statement = .code codeLine) (hlabel : codeLine.label = some name) :
    Token.IsWord name := by
  have hlegal := Statement.legal_of_read h
  rw [hcode] at hlegal
  cases hlegal with
  | code hwords => exact Token.isWord_iff.mpr (hwords name (by simp [hlabel]))

end Mac1
