import Mathlib.Data.List.TakeWhile
import Mac1.Proofs.Line.Respacing

/-! What may stand around a line. Blanks in front of a line, and blanks or a comment behind it, do not change what the
    line says, however it ends: in a word, in a slash of its own, or in a comment, which then takes in what is put
    behind it. -/

namespace Mac1

/-- The items of some characters, without their places. -/
def Lexeme.tokens (cs : List Char) : List Token := (scanFrom 0 cs).map (·.token)

/-- Characters that add nothing to a line which they are put behind. They keep apart from a word or a slash at its
    end, and hold no items but comments, also if those up to the first line feed belong to a comment of the line. -/
structure IsTrailing (tail : List Char) : Prop where
  apart : ∀ c, tail.head? = some c → c ∈ Token.separators ∧ c ≠ '/'
  quiet : Line.code (Lexeme.tokens tail) = []
  feed : Line.code (Lexeme.tokens (tail.dropWhile (· != '\n'))) = []

/-! ### Items without their places -/

namespace Lexeme
variable {c : Char} {cs after gap : List Char} {t : Token}

theorem map_token_scanFrom (offset offset' : Nat) (cs : List Char) :
    (scanFrom offset cs).map (·.token) = (scanFrom offset' cs).map (·.token) := by
  fun_induction scanFrom offset cs generalizing offset' with
  | case1 => rw [scanFrom]
  | case2 offset c cs hblank ih =>
    rw [scanFrom_of_blank hblank]
    exact ih _
  | case3 offset c cs hblank item ih =>
    rw [scanFrom.eq_2 offset', if_neg hblank, List.map_cons, List.map_cons, ih]

theorem tokens_of_isGap (h : IsGap gap) (cs : List Char) : tokens (gap ++ cs) = tokens cs := by
  rw [tokens, tokens, Piece.scanFrom_blanks h.isBlank]
  exact map_token_scanFrom _ _ cs

theorem tokens_of_fits {before : List Char} (h : t.Fits before after) :
    tokens (t.text.toList ++ after) = t :: tokens after := by
  rw [tokens, scanFrom_text_append h, List.map_cons, tokens, map_token_scanFrom]

end Lexeme

/-! ### Characters behind a line -/

section Trailing
variable {before after tail gap : List Char} {t : Token}

/-- Of what follows an item, only the first character matters. -/
theorem Token.Fits.of_head?_eq {after' : List Char} (h : t.Fits before after) (hhead : after'.head? = after.head?) :
    t.Fits before after' := by
  cases t with
  | hash | colon | addressMark | valueMark => trivial
  | stray => exact hhead.trans_ne h
  | comment text => exact ⟨h.1, h.2.1, hhead ▸ h.2.2⟩
  | word text => exact ⟨h.1, h.2.1, hhead ▸ h.2.2⟩

/-- An item that has characters behind it does not depend on what follows these. -/
theorem Token.Fits.append (h : t.Fits before after) (hne : after ≠ []) (tail : List Char) :
    t.Fits before (after ++ tail) :=
  h.of_head?_eq (List.head?_append_of_ne_nil _ hne)

theorem IsTrailing.fits (htail : IsTrailing tail) (h : t.Fits before []) (hcomment : ∀ text, t ≠ .comment text) :
    t.Fits before tail := by
  cases t with
  | hash | colon | addressMark | valueMark => trivial
  | stray => exact fun hhead => (htail.apart '/' hhead).2 rfl
  | comment text => exact absurd rfl (hcomment text)
  | word text => exact ⟨h.1, h.2.1, fun c hc => (htail.apart c hc).1⟩

/-- A comment at the end of a line goes on up to the next line feed. -/
theorem Lexeme.tokens_comment_append {text : String} (h : (Token.comment text).Fits before []) (tail : List Char) :
    ∃ text', tokens (text.toList ++ tail) = .comment text' :: tokens (tail.dropWhile (· != '\n')) := by
  have hline : (Token.comment (text ++ String.ofList (tail.takeWhile (· != '\n')))).Fits before
      (tail.dropWhile (· != '\n')) := by
    obtain ⟨hstart, hfeed, -⟩ := h
    refine ⟨?_, ?_, fun c hc => by simpa using Token.head?_dropWhile hc⟩
    · rw [String.toList_append]
      exact hstart.imp (·.trans (List.prefix_append _ _)) (·.trans (List.prefix_append _ _))
    · rw [String.toList_append, String.toList_ofList, List.mem_append]
      rintro (hmem | hmem)
      · exact hfeed hmem
      · simpa using List.all_eq_true.mp List.all_takeWhile '\n' hmem
  refine ⟨text ++ String.ofList (tail.takeWhile (· != '\n')), ?_⟩
  rw [← tokens_of_fits hline, Token.text, String.toList_append, String.toList_ofList, List.append_assoc,
    List.takeWhile_append_dropWhile]

theorem Line.code_cons_comment (text : String) (items : List Token) : code (.comment text :: items) = code items := rfl

theorem Line.code_cons_of_ne_comment {items : List Token} (h : ∀ text, t ≠ .comment text) :
    code (t :: items) = t :: code items := by
  cases t with
  | comment text => exact absurd rfl (h text)
  | word | hash | colon | addressMark | valueMark | stray => rfl

theorem IsTrailing.code_scanFrom (htail : IsTrailing tail) (offset : Nat) (cs : List Char) :
    Line.code (Lexeme.tokens (cs ++ tail)) = Line.code ((Lexeme.scanFrom offset cs).map (·.token)) := by
  fun_induction Lexeme.scanFrom offset cs with
  | case1 => exact htail.quiet
  | case2 offset c cs hblank ih =>
    have hgap : IsGap [c] := fun d hd => List.mem_singleton.mp hd ▸ Token.isBlank_iff.mp hblank
    rw [← ih]
    exact congrArg Line.code (Lexeme.tokens_of_isGap hgap _)
  | case3 offset c cs hblank item ih =>
    obtain ⟨hcs, hfits⟩ := Token.fits_read [] cs hblank (by simp)
    have hitem : item.token = (Token.read c cs).1 := rfl
    rw [hcs, List.append_assoc, List.map_cons, hitem]
    by_cases hcomment : ∃ text, (Token.read c cs).1 = .comment text
    · obtain ⟨text, ht⟩ := hcomment
      by_cases hrest : (Token.read c cs).2 = []
      · -- the line ends in this comment
        rw [ht, hrest] at hfits
        obtain ⟨text', htokens⟩ := Lexeme.tokens_comment_append hfits tail
        rw [ht, hrest, List.nil_append, Token.text, htokens, Lexeme.scanFrom, Line.code_cons_comment, htail.feed]
        rfl
      · rw [Lexeme.tokens_of_fits (hfits.append hrest tail), ht, Line.code_cons_comment, Line.code_cons_comment, ih]
    · have hplain : ∀ text, (Token.read c cs).1 ≠ .comment text := not_exists.mp hcomment
      have hfits' : (Token.read c cs).1.Fits [] ((Token.read c cs).2 ++ tail) := by
        by_cases hrest : (Token.read c cs).2 = []
        · rw [hrest] at hfits ⊢
          exact htail.fits hfits hplain
        · exact hfits.append hrest tail
      rw [Lexeme.tokens_of_fits hfits', Line.code_cons_of_ne_comment hplain, Line.code_cons_of_ne_comment hplain, ih]

theorem Line.content_congr {text text' : String}
    (h : code (Lexeme.tokens text.toList) = code (Lexeme.tokens text'.toList)) : content text = content text' := by
  rw [Lexeme.tokens, Lexeme.tokens] at h
  rw [content, content, map_statement_read, map_statement_read, Lexeme.scan, Lexeme.scan, h]

/-- Such characters add nothing to a line, wherever in an item the line ends. -/
theorem IsTrailing.content_append {tail : String} (htail : IsTrailing tail.toList) (text : String) :
    Line.content (text ++ tail) = Line.content text := by
  refine Line.content_congr ?_
  rw [String.toList_append]
  exact htail.code_scanFrom 0 text.toList

theorem IsGap.isTrailing (h : IsGap gap) : IsTrailing gap := by
  have hquiet {gap : List Char} (h : IsGap gap) : Line.code (Lexeme.tokens gap) = [] := by
    have htokens := Lexeme.tokens_of_isGap h []
    rw [List.append_nil] at htokens
    rw [htokens, Lexeme.tokens, Lexeme.scanFrom]
    rfl
  refine ⟨fun c hc => ?_, hquiet h, hquiet fun c hc => h c ((List.dropWhile_suffix _).mem hc)⟩
  have hblank := h c (List.mem_of_mem_head? hc)
  refine ⟨Token.mem_separators_of_isBlank (Token.isBlank_iff.mpr hblank), ?_⟩
  rintro rfl
  simp at hblank

theorem isTrailing_semicolon {body : List Char} (h : '\n' ∉ body) : IsTrailing (';' :: body) where
  apart c hc := by
    obtain rfl : ';' = c := Option.some.inj hc
    decide
  quiet := by
    have hfits : (Token.comment (String.ofList (';' :: body))).Fits [] [] :=
      ⟨.inl ⟨body, by simp⟩, by simpa using h, by simp⟩
    have htokens := Lexeme.tokens_of_fits hfits
    rw [Token.text, String.toList_ofList, List.append_nil] at htokens
    rw [htokens, Lexeme.tokens, Lexeme.scanFrom]
    rfl
  feed := by
    have hdrop : (';' :: body).dropWhile (· != '\n') = [] :=
      List.dropWhile_eq_nil_iff.mpr (by simpa using fun c hc => ne_of_mem_of_not_mem hc h)
    rw [hdrop, Lexeme.tokens, Lexeme.scanFrom]
    rfl

/-- Blanks in front of a line do not change what it says. -/
theorem IsGap.content_prepend {gap : String} (h : IsGap gap.toList) (text : String) :
    Line.content (gap ++ text) = Line.content text := by
  refine Line.content_congr ?_
  rw [String.toList_append, Lexeme.tokens_of_isGap h]

end Trailing

end Mac1
