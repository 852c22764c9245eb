import Mac1.Highlight
import Mac1.Proofs.Line.Grammar
import Mac1.Proofs.Line.Tiling

/-! Highlighting and reading. The segments of a line are its items; those of a line that is accepted show the parts of
    what it says, and nothing of it is marked as invalid. Unless a line starts with `#`, it is refused only if something
    of it is marked so. A line here is a single one, so its comment is the last item. -/

namespace Mac1

/-- The text that a segment covers. -/
def Segment.text (line : String) (s : Segment) : String := String.Pos.Raw.extract line ⟨s.start⟩ ⟨s.stop⟩

/-- What the segments of a line show: roles with texts. -/
def marked (line : String) : List (Role × String) := (highlight line).map fun s => (s.role, s.text line)

/-- The texts with a role. -/
def Role.texts (role : Role) (marks : List (Role × String)) : List String :=
  (marks.filter (·.1 = role)).map (·.2)

/-- The part of a statement that the text with a role repeats. -/
def Statement.part (s : Statement) (role : Role) : Option String :=
  match role, s with
  | .label, .code l => l.label
  | .command, .code l => l.command
  | .parameter, .code l => l.parameter
  | .aliasName, .alias d => some d.name
  | _, _ => none

/-- The number of an alias declaration that the text with a role is written as. -/
def Statement.number (s : Statement) (role : Role) : Option Word :=
  match role, s with
  | .aliasAddress, .alias d => d.address
  | .aliasValue, .alias d => d.value
  | _, _ => none

/-- The marks show what a line says, part by part. -/
structure Line.ShownBy (l : Line) (marks : List (Role × String)) : Prop where
  valid : ∀ m ∈ marks, m.1 ≠ .invalid
  parts : ∀ role ∈ [Role.label, .command, .parameter, .aliasName], role.texts marks = (l.statement.part role).toList
  numbers : ∀ role ∈ [Role.aliasAddress, .aliasValue],
    (role.texts marks).map Word.ofDecimal? = (l.statement.number role).toList.map some
  comment : Role.comment.texts marks = l.comment.toList
  keyword : (Role.aliasKeyword.texts marks).length = match l.statement with
    | .alias _ => 1
    | _ => 0

/-! ### Roles and items -/

namespace Role

/-- The items of a line, shown as some roles. -/
def marks (items : List Token) (roles : List Role) : List (Role × String) :=
  (items.zip roles).map fun (item, role) => (role, item.text)

theorem length_ofClauses (before : Token) (n : Nat) (items : List Token) :
    (ofClauses before n items).length = items.length := by
  induction items generalizing before n with
  | nil => rfl
  | cons t items ih => cases t <;> simp [ofClauses, ih]

theorem length_ofWords (n : Nat) (items : List Token) : (ofWords n items).length = items.length := by
  induction items generalizing n with
  | nil => rfl
  | cons t items ih => cases t <;> simp [ofWords, ih]

theorem length_ofItems (items : List Token) : (ofItems items).length = items.length := by
  unfold ofItems
  split
  · simp [length_ofClauses]
  · simp [length_ofWords]
  · exact length_ofWords 0 items

end Role

theorem marked_eq (line : String) : marked line =
    Role.marks ((Lexeme.scan line).map (·.token)) (Role.ofItems ((Lexeme.scan line).map (·.token))) := by
  rw [marked, highlight, Role.marks, List.zip_map_left, List.map_map, List.map_map]
  refine List.map_congr_left fun m hm => ?_
  exact congrArg (Prod.mk m.2) (Lexeme.slice_of_mem_scan (List.of_mem_zip hm).1)

theorem length_roles (line : String) :
    (Role.ofItems ((Lexeme.scan line).map (·.token))).length = (Lexeme.scan line).length := by
  rw [Role.length_ofItems, List.length_map]

theorem spans_highlight (line : String) : (highlight line).map (fun s => (s.start, s.stop)) =
    (Lexeme.scan line).map fun l => (l.start, l.stop) := by
  conv => rhs; rw [← List.map_fst_zip (Nat.le_of_eq (length_roles line).symm), List.map_map]
  rw [highlight, List.map_map]
  rfl

theorem map_role_highlight (line : String) :
    (highlight line).map (·.role) = Role.ofItems ((Lexeme.scan line).map (·.token)) := by
  conv => rhs; rw [← List.map_snd_zip (Nat.le_of_eq (length_roles line))]
  rw [highlight, List.map_map]
  rfl

/-! ### A single line -/

theorem Lexeme.scanFrom_of_no_feed (offset : Nat) {cs : List Char} (h : '\n' ∉ cs) :
    ∃ items comment, (scanFrom offset cs).map (·.token) = items ++ (Option.toList comment).map .comment ∧
      ∀ text, .comment text ∉ items := by
  fun_induction scanFrom offset cs with
  | case1 => exact ⟨[], none, rfl, by simp⟩
  | case2 offset c cs hblank ih => exact ih (mt (List.mem_cons_of_mem c) h)
  | case3 offset c cs hblank item ih =>
    obtain ⟨hcs, hfits⟩ := Token.fits_read [] cs hblank (by simp)
    have hrest : '\n' ∉ (Token.read c cs).2 := fun hmem => h (hcs ▸ List.mem_append_right _ hmem)
    obtain ⟨items, comment, hitems, hplain⟩ := ih hrest
    by_cases hcomment : ∃ text, (Token.read c cs).1 = .comment text
    · obtain ⟨text, ht⟩ := hcomment
      -- whatever follows a comment would start with a line feed
      have hnil : (Token.read c cs).2 = [] := by
        rw [ht] at hfits
        cases hafter : (Token.read c cs).2 with
        | nil => rfl
        | cons d rest =>
          rw [hafter] at hfits hrest
          exact absurd (hfits.2.2 d rfl ▸ List.mem_cons_self) hrest
      rw [hnil, Lexeme.scanFrom]
      exact ⟨[], some text, congrArg (· :: []) ht, by simp⟩
    · refine ⟨(Token.read c cs).1 :: items, comment, congrArg (_ :: ·) hitems, fun text hmem => ?_⟩
      rcases List.mem_cons.mp hmem with htext | hmem
      · exact hcomment ⟨text, htext.symm⟩
      · exact hplain text hmem

namespace Role

@[simp] theorem texts_nil (role : Role) : role.texts [] = [] := rfl

@[simp] theorem texts_cons (role shown : Role) (text : String) (rest : List (Role × String)) :
    role.texts ((shown, text) :: rest) = if shown = role then text :: role.texts rest else role.texts rest := by
  rw [texts, List.filter_cons]
  simp only [decide_eq_true_eq]
  split <;> rfl

@[simp] theorem texts_append (role : Role) (front back : List (Role × String)) :
    role.texts (front ++ back) = role.texts front ++ role.texts back := by
  rw [texts, List.filter_append, List.map_append]
  rfl

@[simp] theorem texts_map (role shown : Role) (texts : List String) :
    role.texts (texts.map (Prod.mk shown)) = if shown = role then texts else [] := by
  induction texts with
  | nil => simp
  | cons text rest ih =>
    rw [List.map_cons, texts_cons, ih]
    split <;> rfl

theorem ofClauses_append_comment (before : Token) (n : Nat) (items : List Token) (text : String) :
    ofClauses before n (items ++ [.comment text]) = ofClauses before n items ++ [.comment] := by
  induction items generalizing before n with
  | nil => rfl
  | cons t items ih => cases t <;> simp [ofClauses, ih]

theorem ofWords_append_comment (n : Nat) (items : List Token) (text : String) :
    ofWords n (items ++ [.comment text]) = ofWords n items ++ [.comment] := by
  induction items generalizing n with
  | nil => rfl
  | cons t items ih => cases t <;> simp [ofWords, ih]

/-- A comment at the end takes no part in the roles of the other items. -/
theorem ofItems_append_comment (items : List Token) (text : String) :
    ofItems (items ++ [.comment text]) = ofItems items ++ [.comment] := by
  rcases items with _ | ⟨t, _ | ⟨u, rest⟩⟩
  · rfl
  · cases t <;> rfl
  · cases t with
    | hash => exact congrArg (_ :: ·) (ofClauses_append_comment .hash 0 (u :: rest) text)
    | word w =>
      cases u with
      | colon => exact congrArg (_ :: _ :: ·) (ofWords_append_comment 0 rest text)
      | word | comment | hash | addressMark | valueMark | stray => simp [ofItems, ofWords, ofWords_append_comment]
    | comment | colon | addressMark | valueMark | stray =>
      have hrest := ofWords_append_comment 0 (u :: rest) text
      simp_all [ofItems, ofWords]

theorem marks_append_comment (items : List Token) (text : String) :
    marks (items ++ [.comment text]) (ofItems (items ++ [.comment text])) =
      marks items (ofItems items) ++ [(.comment, text)] := by
  rw [ofItems_append_comment, marks, List.zip_append (length_ofItems items).symm, List.map_append]
  rfl

end Role

theorem Line.ShownBy.append_comment {s : Statement} {marks : List (Role × String)} (h : ShownBy ⟨s, none⟩ marks)
    (text : String) : ShownBy ⟨s, some text⟩ (marks ++ [(.comment, text)]) where
  valid m hm := by
    rcases List.mem_append.mp hm with hm | hm
    · exact h.valid m hm
    · rw [List.mem_singleton.mp hm]
      exact Role.noConfusion
  parts role hrole := by
    have hne : Role.comment ≠ role := fun h => absurd (h ▸ hrole) (by decide)
    simpa [hne] using h.parts role hrole
  numbers role hrole := by
    have hne : Role.comment ≠ role := fun h => absurd (h ▸ hrole) (by decide)
    simpa [hne] using h.numbers role hrole
  comment := by simpa using h.comment
  keyword := by simpa using h.keyword

/-! ### Lines that are accepted -/

namespace Role

theorem marks_code {l : CodeLine} (h : l.parameter.isSome = true → l.command.isSome = true) :
    marks l.items (ofItems l.items) = (l.label.elim [] fun label => [(.label, label), (.punctuation, ":")]) ++
      l.command.toList.map (Prod.mk .command) ++ l.parameter.toList.map (Prod.mk .parameter) := by
  obtain ⟨label, command, parameter⟩ := l
  cases command with
  | none =>
    obtain rfl : parameter = none := by simpa using h
    cases label <;> rfl
  | some command => cases label <;> cases parameter <;> rfl

theorem shownBy_code {l : CodeLine} (h : l.parameter.isSome = true → l.command.isSome = true) :
    Line.ShownBy ⟨.code l, none⟩ (marks l.items (ofItems l.items)) := by
  rw [marks_code h]
  obtain ⟨label, command, parameter⟩ := l
  refine ⟨?_, ?_, ?_, ?_, ?_⟩
  · cases label <;> simp <;> grind
  · cases label <;> simp [Statement.part]
  · cases label <;> simp [Statement.number]
  · cases label <;> simp
  · cases label <;> simp

/-- The marks of clauses show the two numbers. -/
structure ShowClauses (marks : List (Role × String)) (address value : Option Word) : Prop where
  roles : ∀ m ∈ marks, m.1 ∈ [Role.punctuation, .aliasAddress, .aliasValue]
  address : (aliasAddress.texts marks).map Word.ofDecimal? = address.toList.map some
  value : (aliasValue.texts marks).map Word.ofDecimal? = value.toList.map some

theorem showClauses {items : List Token} {address value : Option Word} (h : Clauses items address value)
    (before : Token) (n : Nat) : ShowClauses (marks items (ofClauses before (n + 2) items)) address value := by
  -- keyword and name are behind, so the role of a word depends on the mark before it only
  induction h generalizing before n with
  | nil => exact ⟨by simp [ofClauses, marks], rfl, rfl⟩
  | @address w a rest value h hrest ih =>
    obtain ⟨hroles, haddress, hvalue⟩ := ih (.word w) (n + 1)
    have hmarks : marks (.addressMark :: .word w :: rest) (ofClauses before (n + 2) (.addressMark :: .word w :: rest)) =
      (.punctuation, "@") :: (.aliasAddress, w) :: marks rest (ofClauses (.word w) (n + 1 + 2) rest) := rfl
    rw [hmarks]
    refine ⟨by simpa using hroles, ?_, ?_⟩
    · simpa [Word.ofDecimal?_eq_some_iff.mpr h] using haddress
    · simpa using hvalue
  | @value w v rest address h hrest ih =>
    obtain ⟨hroles, haddress, hvalue⟩ := ih (.word w) (n + 1)
    have hmarks : marks (.valueMark :: .word w :: rest) (ofClauses before (n + 2) (.valueMark :: .word w :: rest)) =
      (.punctuation, "=") :: (.aliasValue, w) :: marks rest (ofClauses (.word w) (n + 1 + 2) rest) := rfl
    rw [hmarks]
    refine ⟨by simpa using hroles, ?_, ?_⟩
    · simpa using haddress
    · simpa [Word.ofDecimal?_eq_some_iff.mpr h] using hvalue

theorem ShowClauses.texts_eq_nil {shown : List (Role × String)} {address value : Option Word} {role : Role}
    (h : ShowClauses shown address value) (hrole : role ∉ [Role.punctuation, .aliasAddress, .aliasValue]) :
    role.texts shown = [] := by
  refine List.map_eq_nil_iff.mpr (List.filter_eq_nil_iff.mpr fun m hm hmrole => hrole ?_)
  rw [← decide_eq_true_eq.mp hmrole]
  exact h.roles m hm

theorem shownBy_alias {items : List Token} {d : AliasDeclaration} (h : DeclaresAlias items d) :
    Line.ShownBy ⟨.alias d, none⟩ (marks items (ofItems items)) := by
  obtain ⟨name, address, value⟩ := d
  obtain ⟨rest, hopens, -, hclauses⟩ := h
  cases hopens with
  | @mk keyword name rest hkeyword =>
    have hmarks : marks (.hash :: .word keyword :: .word name :: rest)
        (ofItems (.hash :: .word keyword :: .word name :: rest)) = (.punctuation, "#") :: (.aliasKeyword, keyword) ::
          (.aliasName, name) :: marks rest (ofClauses (.word name) 2 rest) := rfl
    have hshow := showClauses hclauses (.word name) 0
    rw [hmarks]
    refine ⟨?_, ?_, ?_, ?_, ?_⟩
    · simp only [List.forall_mem_cons]
      refine ⟨by simp, by simp, by simp, fun m hm hinvalid => ?_⟩
      have hrole := hshow.roles m hm
      rw [hinvalid] at hrole
      simp at hrole
    · simp [Statement.part, hshow.texts_eq_nil]
    · simp [Statement.number, hshow.address, hshow.value]
    · simp [hshow.texts_eq_nil]
    · simp [hshow.texts_eq_nil]

theorem shownBy_of_verdict {items : List Token} {s : Statement} (h : Verdict items (.ok s)) :
    Line.ShownBy ⟨s, none⟩ (marks items (ofItems items)) := by
  cases h with
  | empty h =>
    rw [h]
    exact ⟨by simp [marks], by simp [marks, Statement.part], by simp [marks, Statement.number], rfl, rfl⟩
  | declares h => exact shownBy_alias h
  | code hne h =>
    obtain ⟨rfl, hparameter⟩ := h
    exact shownBy_code hparameter

end Role

theorem Line.shownBy_of_read {line : String} {l : Line} (hfeed : '\n' ∉ line.toList) (h : read line = .ok l) :
    l.ShownBy (marked line) := by
  have hverdict := verdict_of_read h
  have hcomment := comment_of_read h
  obtain ⟨items, comment, hitems, hplain⟩ := Lexeme.scanFrom_of_no_feed 0 hfeed
  obtain ⟨s, found⟩ := l
  rw [marked_eq]
  rw [Lexeme.scan, hitems] at hverdict hcomment ⊢
  cases comment with
  | none =>
    rw [Option.toList_none, List.map_nil, List.append_nil] at hverdict hcomment ⊢
    rw [code_eq_self hplain] at hverdict
    obtain rfl : found = none := hcomment.trans (commentOf_eq_none hplain)
    exact Role.shownBy_of_verdict hverdict
  | some text =>
    have hlast : (Option.toList (some text)).map Token.comment = [.comment text] := rfl
    rw [hlast] at hverdict hcomment ⊢
    rw [code_append_comment hplain] at hverdict
    obtain rfl : found = some text := hcomment.trans (commentOf_append_comment items text)
    rw [Role.marks_append_comment]
    exact (Role.shownBy_of_verdict hverdict).append_comment text

/-! ### Lines that are refused -/

namespace Role

/-- Words that are not marked as invalid are the words of a line of code. -/
theorem words_of_valid {n : Nat} {items : List Token} (hn : n ≤ 2) (h : .invalid ∉ ofWords n items) :
    .stray ∉ items ∧ ∃ words : List String, Line.code items = words.map .word ∧ n + words.length ≤ 2 := by
  induction items generalizing n with
  | nil => exact ⟨by simp, [], rfl, hn⟩
  | cons t items ih =>
    cases t with
    | word w =>
      simp only [ofWords, List.mem_cons, not_or] at h
      have hlt : n + 1 ≤ 2 := by
        rcases n with _ | _ | n
        · omega
        · omega
        · exact absurd rfl h.1
      obtain ⟨hstray, words, hwords, hlength⟩ := ih hlt h.2
      exact ⟨by simpa using hstray, w :: words, congrArg (Token.word w :: ·) hwords, by rw [List.length_cons]; omega⟩
    | comment text =>
      simp only [ofWords, List.mem_cons, not_or] at h
      obtain ⟨hstray, words, hwords, hlength⟩ := ih hn h.2
      exact ⟨by simpa using hstray, words, hwords, hlength⟩
    | hash | colon | addressMark | valueMark | stray => simp [ofWords] at h

theorem exists_read_of_valid {items : List Token} (hfirst : items.head? ≠ some .hash) (h : .invalid ∉ ofItems items) :
    .stray ∉ items ∧ ∃ s, Statement.read (Line.code items) = .ok s := by
  unfold ofItems at h
  split at h
  · exact absurd rfl hfirst
  · next w rest =>
    simp only [List.mem_cons, not_or] at h
    obtain ⟨hstray, words, hwords, hlength⟩ := words_of_valid (Nat.zero_le 2) h.2.2
    have hcode : Line.code (.word w :: .colon :: rest) = .word w :: .colon :: words.map .word :=
      congrArg (Token.word w :: Token.colon :: ·) hwords
    obtain ⟨l, hl⟩ := CodeLine.exists_isCode (some w) words (by omega)
    refine ⟨by simpa using hstray, ?_⟩
    rw [hcode]
    exact Statement.exists_read_of_isCode hl
  · obtain ⟨hstray, words, hwords, hlength⟩ := words_of_valid (Nat.zero_le 2) h
    obtain ⟨l, hl⟩ := CodeLine.exists_isCode none words (by omega)
    refine ⟨hstray, ?_⟩
    rw [hwords]
    exact Statement.exists_read_of_isCode hl

end Role

theorem Line.exists_read_of_valid {line : String} (hfirst : (Lexeme.scan line).head?.map (·.token) ≠ some .hash)
    (h : ∀ s ∈ highlight line, s.role ≠ .invalid) : ∃ l, read line = .ok l := by
  have hinvalid : .invalid ∉ Role.ofItems ((Lexeme.scan line).map (·.token)) := by
    rw [← map_role_highlight]
    simpa using h
  obtain ⟨hstray, s, hs⟩ := Role.exists_read_of_valid (by rwa [List.head?_map]) hinvalid
  exact ⟨_, by rw [read, if_neg hstray, hs]; rfl⟩

/-- The segments of a line are its items. They show what an accepted line says, and a line that does not start with `#`
    is refused exactly if a segment of it is invalid. -/
theorem highlight_agrees (line : String) (hfeed : '\n' ∉ line.toList) :
    (highlight line).map (fun s => (s.start, s.stop)) = (Lexeme.scan line).map (fun l => (l.start, l.stop)) ∧
      (∀ l, Line.read line = .ok l → l.ShownBy (marked line)) ∧
      ((Lexeme.scan line).head?.map (·.token) ≠ some .hash →
        ((∃ e, Line.read line = .error e) ↔ ∃ s ∈ highlight line, s.role = .invalid)) := by
  refine ⟨spans_highlight line, fun l => Line.shownBy_of_read hfeed, fun hfirst => ⟨?_, ?_⟩⟩
  · rintro ⟨e, he⟩
    by_contra hvalid
    obtain ⟨l, hl⟩ := Line.exists_read_of_valid hfirst fun s hs hrole => hvalid ⟨s, hs, hrole⟩
    cases he.symm.trans hl
  · rintro ⟨s, hs, hrole⟩
    cases hread : Line.read line with
    | error e => exact ⟨e, rfl⟩
    | ok l => exact absurd hrole ((Line.shownBy_of_read hfeed hread).valid _ (List.mem_map_of_mem hs))

/-- A declaration with its value before its address, and a line with a colon too many. -/
theorem highlight_agrees_at_two_lines :
    '\n' ∉ "#alias n =-4 @7 ; init".toList ∧
      Line.ShownBy ⟨.alias ⟨"n", some 7, some (-4)⟩, some "; init"⟩ (marked "#alias n =-4 @7 ; init") ∧
      '\n' ∉ "l: JUMP: x".toList ∧ ∃ s ∈ highlight "l: JUMP: x", s.role = .invalid := by
  have hfeed : '\n' ∉ "#alias n =-4 @7 ; init".toList := by decide
  have hfeed' : '\n' ∉ "l: JUMP: x".toList := by decide
  obtain ⟨-, hshown, -⟩ := highlight_agrees "#alias n =-4 @7 ; init" hfeed
  obtain ⟨-, -, hrefused⟩ := highlight_agrees "l: JUMP: x" hfeed'
  have hread : Line.read "l: JUMP: x" = .error .malformedLabel := by decide +kernel
  exact ⟨hfeed, hshown _ (by decide +kernel), hfeed', (hrefused (by decide +kernel)).mp ⟨_, hread⟩⟩

end Mac1
