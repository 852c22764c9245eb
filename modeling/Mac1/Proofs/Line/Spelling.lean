import Mac1.Proofs.Line.Tiling

/-! Writing items down. Words and marks may be written one behind the other with any blanks between them, as long as
    two words do not touch; the items of such a text are the ones that were written, each where it was
    written. -/

namespace Mac1

open String (utf8Len)

/-- An item to be written, and the blanks in front of it. -/
structure Piece where
  gap : List Char
  token : Token

namespace Piece

/-- The characters that a piece is written with. -/
def chars (p : Piece) : List Char := p.gap ++ p.token.text.toList

/-- The characters of several pieces. -/
def spelling (pieces : List Piece) : List Char := pieces.flatMap chars

/-- The items of several pieces which are written from byte `offset` on. -/
def placed (offset : Nat) : List Piece → List Lexeme
  | [] => []
  | p :: rest => ⟨p.token, offset + utf8Len p.gap⟩ :: placed (offset + utf8Len p.chars) rest

/-- The item is a mark or a word. -/
def IsPlain : Token → Prop
  | .word text => Token.IsWord text
  | .hash | .colon | .addressMark | .valueMark => True
  | .comment _ | .stray => False

/-- The pieces have only blanks in their gaps, and a gap between two words. -/
structure Proper (pieces : List Piece) : Prop where
  blank : ∀ p ∈ pieces, ∀ c ∈ p.gap, Text.isBlank c = true
  plain : ∀ p ∈ pieces, IsPlain p.token
  apart : pieces.IsChain fun p p' => p.token.word?.isSome = true → p'.token.word?.isSome = true → p'.gap ≠ []

theorem Proper.tail {p : Piece} {rest : List Piece} (h : Proper (p :: rest)) : Proper rest where
  blank p' hp' := h.blank p' (List.mem_cons_of_mem p hp')
  plain p' hp' := h.plain p' (List.mem_cons_of_mem p hp')
  apart := h.apart.of_cons

theorem spelling_cons (p : Piece) (rest : List Piece) : spelling (p :: rest) = p.chars ++ spelling rest := rfl

theorem map_token_placed (offset : Nat) (pieces : List Piece) :
    (placed offset pieces).map (·.token) = pieces.map (·.token) := by
  induction pieces generalizing offset with
  | nil => rfl
  | cons p rest ih => rw [placed, List.map_cons, List.map_cons, ih]

section Scan
variable {offset : Nat} {gap cs tail : List Char} {pieces rest : List Piece} {p : Piece} {c : Char}

theorem scanFrom_blanks (h : ∀ c ∈ gap, Text.isBlank c = true) :
    Lexeme.scanFrom offset (gap ++ cs) = Lexeme.scanFrom (offset + utf8Len gap) cs := by
  induction gap generalizing offset with
  | nil => rfl
  | cons c gap ih =>
    rw [List.cons_append, Lexeme.scanFrom_of_blank (h c List.mem_cons_self),
      ih fun d hd => h d (List.mem_cons_of_mem c hd), String.utf8Len_cons, Nat.add_assoc, Nat.add_comm c.utf8Size]

theorem head_mem_separators_of_mark (h : IsPlain p.token) (hword : p.token.word? = none)
    (hc : (p.token.text.toList ++ cs).head? = some c) : c ∈ Token.separators := by
  cases ht : p.token with
  | word => rw [ht] at hword; cases hword
  | comment | stray => rw [ht] at h; exact h.elim
  | hash | colon | addressMark | valueMark =>
    rw [ht] at hc
    obtain rfl := Option.some.inj hc
    decide

/-- A word ends where the next piece starts. -/
theorem Proper.head_mem_separators (h : Proper (p :: rest)) (hp : p.token.word?.isSome = true)
    (htail : ∀ c, tail.head? = some c → c ∈ Token.separators) (hc : (spelling rest ++ tail).head? = some c) :
    c ∈ Token.separators := by
  cases rest with
  | nil => exact htail c hc
  | cons p' rest =>
    rw [spelling_cons, chars, List.append_assoc, List.append_assoc] at hc
    cases hgap : p'.gap with
    | cons d gap =>
      rw [hgap] at hc
      obtain rfl := Option.some.inj hc
      exact Token.mem_separators_of_isBlank (h.blank p' (by simp) d (by simp [hgap]))
    | nil =>
      rw [hgap] at hc
      refine head_mem_separators_of_mark (h.plain p' (by simp)) ?_ hc
      have hmark := mt ((List.isChain_cons_cons.mp h.apart).1 hp) (not_not_intro hgap)
      simpa using hmark

theorem Proper.fits (h : Proper (p :: rest)) (htail : ∀ c, tail.head? = some c → c ∈ Token.separators) :
    p.token.Fits [] (spelling rest ++ tail) := by
  have hplain := h.plain p List.mem_cons_self
  cases ht : p.token with
  | word text =>
    rw [ht] at hplain
    exact ⟨Token.isWord_iff.mp hplain, by simp, fun c => h.head_mem_separators (by rw [ht]; rfl) htail⟩
  | comment | stray => rw [ht] at hplain; exact hplain.elim
  | hash | colon | addressMark | valueMark => trivial

/-- What is written is read, up to a text that starts with no character of a word. -/
theorem scanFrom_spelling (h : Proper pieces) (htail : ∀ c, tail.head? = some c → c ∈ Token.separators) :
    Lexeme.scanFrom offset (spelling pieces ++ tail) =
      placed offset pieces ++ Lexeme.scanFrom (offset + utf8Len (spelling pieces)) tail := by
  induction pieces generalizing offset with
  | nil => rfl
  | cons p rest ih =>
    -- the item fits before all that is still to come, so it is the one that is read behind the gap
    rw [spelling_cons, chars, List.append_assoc, List.append_assoc, scanFrom_blanks (h.blank p List.mem_cons_self),
      Lexeme.scanFrom_text_append (h.fits htail), ih h.tail, placed]
    simp [chars, Nat.add_assoc]

end Scan

end Piece

end Mac1
