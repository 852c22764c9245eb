import Mac1.Proofs.Line.Grammar
import Mac1.Proofs.Line.Spelling

/-! Re-spacing. However words and marks are written down, with any blanks around them as long as two words do not touch,
    the line that comes of it has just these items, each where it was written, and a comment behind them is one item
    more. So what a line says does not depend on its blanks. -/

namespace Mac1

open String (utf8Len)

/-- A run of blanks, which may be empty. -/
def IsGap (cs : List Char) : Prop := ∀ c ∈ cs, c ∈ [' ', '\t', '\r', '\n', '\x0c']

/-- A comment with its marker. It does not go beyond its line. -/
def IsComment (text : String) : Prop := '\n' ∉ text.toList ∧ ∃ body, text = ";" ++ body ∨ text = "//" ++ body

namespace Piece

/-- The pieces are words and marks with blanks in front of them. Two words do not touch. -/
structure Spaced (pieces : List Piece) : Prop where
  gaps : ∀ p ∈ pieces, IsGap p.gap
  tokens : ∀ p ∈ pieces, p.token ∈ [.hash, .colon, .addressMark, .valueMark] ∨
    ∃ text, p.token = .word text ∧ text.toList ≠ [] ∧ ∀ c ∈ text.toList, c ∉ Token.separators
  apart : pieces.IsChain fun p p' => p.token.word?.isSome = true → p'.token.word?.isSome = true → p'.gap ≠ []

/-- The line that is written with some pieces, blanks behind them, and perhaps a comment. -/
def line (pieces : List Piece) (gap : List Char) (comment : Option String) : String :=
  String.ofList (spelling pieces ++ gap) ++ comment.getD ""

end Piece

/-- The items are those that were written, each at the bytes where it was written. -/
structure Lexeme.AsWritten (pieces : List Piece) (gap : List Char) (comment : Option String) (items : List Lexeme) :
    Prop where
  tokens : items.map (·.token) = pieces.map (·.token) ++ comment.toList.map .comment
  spans : ∀ n p, pieces[n]? = some p → ∃ l, items[n]? = some l ∧ l.token = p.token ∧
    l.start = utf8Len (Piece.spelling (pieces.take n) ++ p.gap) ∧
    l.stop = utf8Len (Piece.spelling (pieces.take n) ++ p.gap ++ p.token.text.toList)
  comment : ∀ text, comment = some text → ∃ l, items[pieces.length]? = some l ∧ l.token = .comment text ∧
    l.start = utf8Len (Piece.spelling pieces ++ gap) ∧ l.stop = (Piece.line pieces gap comment).utf8ByteSize

/-- What a text says as a line, its comment left out, or why it says nothing. -/
def Line.content (text : String) : Except LineError Statement := (read text).map (·.statement)

theorem Line.content_eq_ok_iff {text : String} {s : Statement} :
    content text = .ok s ↔ ∃ comment, read text = .ok ⟨s, comment⟩ := by
  unfold content
  cases read text with
  | error e => simp [Except.map]
  | ok line =>
    obtain ⟨statement, comment⟩ := line
    simp [Except.map]

theorem Line.content_eq_error_iff {text : String} {e : LineError} : content text = .error e ↔ read text = .error e := by
  unfold content
  cases read text <;> simp [Except.map]

/-! ### Items -/

theorem IsGap.isBlank {gap : List Char} (h : IsGap gap) : ∀ c ∈ gap, Text.isBlank c = true :=
  fun c hc => Token.isBlank_iff.mpr (h c hc)

theorem IsComment.fits {text : String} (h : IsComment text) (before : List Char) :
    (Token.comment text).Fits before [] := by
  obtain ⟨hfeed, body, rfl | rfl⟩ := h
  · exact ⟨.inl ⟨body.toList, by simp⟩, hfeed, by simp⟩
  · exact ⟨.inr ⟨body.toList, by simp⟩, hfeed, by simp⟩

namespace Piece
variable {pieces pieces' : List Piece} {gap gap' : List Char} {comment comment' : Option String} {offset : Nat}

theorem Spaced.proper (h : Spaced pieces) : Proper pieces where
  blank p hp := (h.gaps p hp).isBlank
  plain p hp := by
    rcases h.tokens p hp with hmark | ⟨text, htoken, hword⟩
    · simp only [List.mem_cons, List.not_mem_nil, or_false] at hmark
      rcases hmark with hmark | hmark | hmark | hmark <;> rw [hmark] <;> trivial
    · rw [htoken]
      exact Token.isWord_iff.mpr hword
  apart := h.apart

theorem placed_getElem? (offset n : Nat) (pieces : List Piece) : (placed offset pieces)[n]? =
    pieces[n]?.map fun p => ⟨p.token, offset + utf8Len (spelling (pieces.take n) ++ p.gap)⟩ := by
  induction pieces generalizing offset n with
  | nil => rfl
  | cons p rest ih =>
    cases n with
    | zero => simp [placed, spelling]
    | succ n =>
      rw [placed, List.getElem?_cons_succ, ih, List.getElem?_cons_succ, List.take_succ_cons, spelling_cons]
      simp [Nat.add_assoc]

section Comment
variable (hgap : IsGap gap) (hcomment : ∀ text, comment = some text → IsComment text)
include hgap hcomment

theorem scanFrom_end (offset : Nat) : Lexeme.scanFrom offset (gap ++ (comment.getD "").toList) =
    comment.toList.map fun text => ⟨.comment text, offset + utf8Len gap⟩ := by
  rw [scanFrom_blanks hgap.isBlank]
  cases comment with
  | none => simp [Lexeme.scanFrom]
  | some text =>
    have hfits := (hcomment text rfl).fits []
    obtain ⟨c, cs, hchars⟩ := List.exists_cons_of_ne_nil hfits.text_ne_nil
    replace hchars : text.toList = c :: cs := hchars
    rw [Option.getD_some, hchars, Lexeme.scanFrom_of_fits hfits (by rw [List.append_nil]; exact hchars), Lexeme.scanFrom]
    rfl

theorem head_end_mem_separators {c : Char} (hc : (gap ++ (comment.getD "").toList).head? = some c) :
    c ∈ Token.separators := by
  cases gap with
  | cons d gap =>
    obtain rfl : d = c := Option.some.inj hc
    exact Token.mem_separators_of_isBlank (hgap.isBlank d List.mem_cons_self)
  | nil =>
    cases comment with
    | none => cases hc
    | some text =>
      obtain ⟨-, body, rfl | rfl⟩ := hcomment text rfl
      · obtain rfl : ';' = c := by simpa using hc
        decide
      · obtain rfl : '/' = c := by simpa using hc
        decide

/-- The items of a line are its pieces and its comment. -/
theorem Proper.scan_line (h : Proper pieces) : Lexeme.scan (line pieces gap comment) =
    placed 0 pieces ++ comment.toList.map fun text => ⟨.comment text, utf8Len (spelling pieces ++ gap)⟩ := by
  have hchars : (line pieces gap comment).toList = spelling pieces ++ (gap ++ (comment.getD "").toList) := by
    simp [line]
  rw [Lexeme.scan, hchars, scanFrom_spelling h fun c => head_end_mem_separators hgap hcomment,
    scanFrom_end hgap hcomment]
  simp

theorem Proper.asWritten (h : Proper pieces) :
    Lexeme.AsWritten pieces gap comment (Lexeme.scan (line pieces gap comment)) := by
  have hlength : (placed 0 pieces).length = pieces.length := by
    simpa using congrArg List.length (map_token_placed 0 pieces)
  rw [h.scan_line hgap hcomment]
  constructor
  case tokens => simp [map_token_placed, Function.comp_def]
  case spans =>
    intro n p hp
    have hn : n < (placed 0 pieces).length := hlength ▸ (List.getElem?_eq_some_iff.mp hp).1
    rw [List.getElem?_append_left hn, placed_getElem?, hp, Option.map_some]
    refine ⟨_, rfl, rfl, Nat.zero_add _, ?_⟩
    rw [Lexeme.stop_eq, Nat.zero_add, ← String.utf8Len_append]
  case comment =>
    rintro text rfl
    rw [← hlength, List.getElem?_append_right (Nat.le_refl _), Nat.sub_self]
    refine ⟨_, rfl, rfl, rfl, ?_⟩
    rw [Lexeme.stop_eq, ← String.utf8Len_append, ← String.utf8Len_toList]
    simp [line, Token.text]

/-- A line is read as its items are, whatever blanks stand between them. -/
theorem Proper.read_line (h : Proper pieces) : Line.read (line pieces gap comment) =
    (Statement.read (pieces.map (·.token))).map fun statement => { statement, comment } := by
  have htokens := (h.asWritten hgap hcomment).tokens
  have hplain : ∀ t ∈ pieces.map (·.token), IsPlain t := by
    simpa using h.plain
  have hstray : .stray ∉ pieces.map (·.token) := hplain .stray
  have hnone : ∀ text, .comment text ∉ pieces.map (·.token) := fun text => hplain (.comment text)
  rw [Line.read]
  cases comment with
  | none =>
    rw [Option.toList_none, List.map_nil, List.append_nil] at htokens
    simp only [htokens, if_neg hstray, Line.code_eq_self hnone, Line.commentOf_eq_none hnone]
  | some text =>
    rw [Option.toList_some, List.map_singleton] at htokens
    have hstray : .stray ∉ pieces.map (·.token) ++ [.comment text] := by
      simpa using hstray
    simp only [htokens, if_neg hstray, Line.code_append_comment hnone, Line.commentOf_append_comment]

/-- Words and marks that are written down are read back as these items, each where it was written, and the comment
    behind them as one more. What the line says depends on its words and marks alone. -/
theorem scan_as_written (h : Spaced pieces) :
    Lexeme.AsWritten pieces gap comment (Lexeme.scan (line pieces gap comment)) ∧
      ∀ pieces' gap' comment', Spaced pieces' → IsGap gap' → (∀ text, comment' = some text → IsComment text) →
        pieces'.map (·.token) = pieces.map (·.token) →
        Line.content (line pieces' gap' comment') = Line.content (line pieces gap comment) := by
  refine ⟨h.proper.asWritten hgap hcomment, fun pieces' gap' comment' h' hgap' hcomment' htokens => ?_⟩
  rw [Line.content, Line.content, h'.proper.read_line hgap' hcomment', h.proper.read_line hgap hcomment, htokens]
  cases Statement.read (pieces.map (·.token)) <;> rfl

end Comment

/-- A word with letters of two bytes, which touches a mark on its right, and one which touches the comment. -/
def glued : List Piece := [⟨[' '], .word "größe"⟩, ⟨[], .colon⟩, ⟨['\t'], .word "LODD"⟩, ⟨[' '], .word "x"⟩]

/-- The same words and marks with other blanks. -/
def loose : List Piece := [⟨[], .word "größe"⟩, ⟨[' '], .colon⟩, ⟨['\r'], .word "LODD"⟩, ⟨['\t', ' '], .word "x"⟩]

theorem scan_as_written_glued : Lexeme.AsWritten glued [] (some "// y") (Lexeme.scan " größe:\tLODD x// y") ∧
    Line.content "größe :\rLODD\t x " = Line.content " größe:\tLODD x// y" := by
  have hcomment : ∀ text, some "// y" = some text → IsComment text := by
    rintro text ⟨⟩
    exact ⟨by decide, " y", .inr (by decide)⟩
  have hglued : Spaced glued := ⟨by simp [glued, IsGap], by simp [glued, Token.separators], by simp [glued, Token.word?]⟩
  have hloose : Spaced loose := ⟨by simp [loose, IsGap], by simp [loose, Token.separators], by simp [loose, Token.word?]⟩
  obtain ⟨hwritten, hcontent⟩ := scan_as_written (show IsGap [] from by simp [IsGap]) hcomment hglued
  have hline : line glued [] (some "// y") = " größe:\tLODD x// y" := by decide +kernel
  have hline' : line loose [' '] none = "größe :\rLODD\t x " := by decide +kernel
  rw [hline] at hwritten hcontent
  rw [← hline']
  exact ⟨hwritten, hcontent loose [' '] none hloose (by simp [IsGap]) (by simp) (by decide)⟩

end Piece

end Mac1
