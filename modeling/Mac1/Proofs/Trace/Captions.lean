import Mathlib.Data.List.Nodup
import Mac1.Proofs.Assembly.Acceptance
import Mac1.Proofs.Line.Printing

/-! The captions of a program. A caption tells the index of its instruction: it stands right before the first
    parenthesis that a colon follows, because no label has a colon in it. So the captions of a program differ,
    and since labels have no blanks either, none looks like a line that is indented. -/

namespace Mac1

open SourceLine

/-- The digits that stand before the first colon and a parenthesis, from the last one on. -/
def captionDigits (cs : List Char) : List Char :=
  (((cs.takeWhile (· != ':')).reverse).drop 1).takeWhile Char.isDigit

theorem captionDigits_append {start digits rest : List Char} {mark : Char} (hstart : ':' ∉ start) (hcolon : mark ≠ ':')
    (hmark : mark.isDigit = false) (hdigits : ∀ c ∈ digits, c.isDigit = true) :
    captionDigits (start ++ mark :: (digits ++ ')' :: ':' :: rest)) = digits.reverse := by
  have hfront : ∀ c ∈ start ++ mark :: (digits ++ [')']), (c != ':') = true := by
    intro c hc
    rw [bne_iff_ne]
    rintro rfl
    simp only [List.mem_append, List.mem_cons, List.not_mem_nil, or_false] at hc
    rcases hc with hc | hc | hc | hc
    · exact hstart hc
    · exact hcolon hc.symm
    · exact absurd (hdigits _ hc) (by decide)
    · exact absurd hc (by decide)
  have hsplit : start ++ mark :: (digits ++ ')' :: ':' :: rest) =
      (start ++ mark :: (digits ++ [')'])) ++ ':' :: rest := by simp
  have hreverse : (start ++ mark :: (digits ++ [')'])).reverse = ')' :: (digits.reverse ++ mark :: start.reverse) := by
    simp
  rw [captionDigits, hsplit, List.takeWhile_append_of_pos hfront, List.takeWhile_cons_of_neg (by simp),
    List.append_nil, hreverse, List.drop_one, List.tail_cons,
    List.takeWhile_append_of_pos fun c hc => hdigits c (List.mem_reverse.mp hc),
    List.takeWhile_cons_of_neg (by simp [hmark]), List.append_nil]

/-- The caption tells an index, and does not start with a space. -/
def Numbered (index : Nat) (caption : String) : Prop :=
  captionDigits caption.toList = (Nat.toDigits 10 index).reverse ∧ caption.toList.head? ≠ some ' '

theorem Numbered.unique {i j : Nat} {caption : String} (h : Numbered i caption) (h' : Numbered j caption) : i = j := by
  have hdigits : Nat.toDigits 10 i = Nat.toDigits 10 j := List.reverse_inj.mp (h.1.symm.trans h'.1)
  have hvalue := congrArg (Nat.ofDigitChars 10 · 0) hdigits
  simpa using hvalue

/-- A heading tells its index if its label is a word. -/
theorem numbered_heading {label : Option String} (h : ∀ name, label = some name → Token.IsWord name) (index : Nat)
    (rest : String) : Numbered index (Instruction.heading label index ++ rest) := by
  have hdigits : ∀ c ∈ Nat.toDigits 10 index, c.isDigit = true := fun c hc => Decimal.isDigit_toDigits hc
  have hrender : (Decimal.render index).toList = Nat.toDigits 10 index := by
    simp [Decimal.render]
  cases label with
  | none =>
    have htext : (Instruction.heading none index ++ rest).toList =
        [] ++ '(' :: (Nat.toDigits 10 index ++ ')' :: ':' :: (' ' :: rest.toList)) := by
      simp [Instruction.heading, hrender]
    rw [Numbered, htext]
    exact ⟨captionDigits_append (by simp) (by decide) (by decide) hdigits, by simp⟩
  | some name =>
    obtain ⟨hname, hchars⟩ := h name rfl
    have htext : (Instruction.heading (some name) index ++ rest).toList =
        (name.toList ++ ['(']) ++ '=' :: (Nat.toDigits 10 index ++ ')' :: ':' :: (' ' :: rest.toList)) := by
      simp [Instruction.heading, hrender]
    have hcolon : ':' ∉ name.toList ++ ['('] := by
      intro hc
      rcases List.mem_append.mp hc with hc | hc
      · exact absurd (hchars ':' hc) (by decide)
      · exact absurd hc (by decide)
    rw [Numbered, htext]
    refine ⟨captionDigits_append hcolon (by decide) (by decide) hdigits, ?_⟩
    cases hfirst : name.toList with
    | nil => exact absurd hfirst hname
    | cons c cs =>
      intro hspace
      have hc : c = ' ' := by simpa using hspace
      have hword := hchars c (by rw [hfirst]; exact List.mem_cons_self)
      rw [hc] at hword
      exact absurd hword (by decide)

/-- The lines of a trace can be told apart: no two captions are the same, and none starts with a space. -/
structure Program.Legible (p : Program) : Prop where
  distinct : p.captions.Nodup
  unindented : ∀ caption ∈ p.captions, caption.toList.head? ≠ some ' '

theorem Emitted.numbered {target : Target} {texts : List String} {lines : List SourceLine} {p : Program}
    (h : Emitted target lines p) (hr : Reads texts lines) {j : Nat} {i : Instruction}
    (hi : p.instructions[j]? = some i) : Numbered j i.caption := by
  rcases h.initializer_or_command hi with ⟨-, n, a, -, rfl, value, -, rfl⟩ | ⟨n, l, hl, -, rfl, hinstruction⟩
  · have hnone : ∀ name, (none : Option String) = some name → Token.IsWord name := nofun
    exact numbered_heading hnone _ _
  · obtain ⟨code, command, effect, mnemonic, hcode, -, -, rfl⟩ := hinstruction
    have hlabel : ∀ name, code.label = some name → Token.IsWord name := by
      intro name hname
      obtain ⟨comment, hread⟩ := hr.statements l (List.mem_of_getElem? hl)
      exact Line.isWord_of_label hread hcode hname
    dsimp only
    rw [String.append_assoc]
    exact numbered_heading hlabel _ _

theorem Emitted.legible {target : Target} {texts : List String} {lines : List SourceLine} {p : Program}
    (h : Emitted target lines p) (hr : Reads texts lines) : p.Legible := by
  have numbered : ∀ j caption, p.captions[j]? = some caption → Numbered j caption := by
    intro j caption hcaption
    rw [Program.captions, List.getElem?_map, Option.map_eq_some_iff] at hcaption
    obtain ⟨i, hi, rfl⟩ := hcaption
    exact h.numbered hr (by rwa [Array.getElem?_toList] at hi)
  refine ⟨?_, fun caption hcaption => ?_⟩
  · rw [List.nodup_iff_getElem?_ne_getElem?]
    intro i j hij hj hsame
    have hcaption := List.getElem?_eq_getElem hj
    have := (numbered i _ (hsame.trans hcaption)).unique (numbered j _ hcaption)
    omega
  · obtain ⟨j, hj⟩ := List.mem_iff_getElem?.mp hcaption
    exact (numbered j caption hj).2

end Mac1
