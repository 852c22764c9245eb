import Mac1.Line

/-! The characters of a line. Blanks and punctuation separate words, which are made of all other characters. -/

namespace Mac1

namespace Token

/-! ### Characters -/

/-- The characters that no word has. -/
def separators : List Char := [' ', '\t', '\r', '\n', '\x0c', ':', '#', ';', '@', '=', '/']

theorem isBlank_iff {c : Char} : Text.isBlank c = true ↔ c ∈ [' ', '\t', '\r', '\n', '\x0c'] := by
  simp [Text.isBlank, or_assoc]

theorem mark?_eq_none_iff {c : Char} : mark? c = none ↔ c ∉ ['#', ':', '@', '='] := by
  unfold mark?
  repeat' split
  all_goals simp_all

theorem isWordChar_eq_true_iff {c : Char} : isWordChar c = true ↔ c ∉ separators := by
  have hmark : (mark? c).isNone = true ↔ c ∉ ['#', ':', '@', '='] := by
    rw [Option.isNone_iff_eq_none, mark?_eq_none_iff]
  simp only [isWordChar, Bool.and_eq_true, hmark]
  simp [Text.isBlank, separators]
  grind

theorem isWordChar_eq_false_iff {c : Char} : isWordChar c = false ↔ c ∈ separators := by
  rw [← Bool.not_eq_true, isWordChar_eq_true_iff, Decidable.not_not]

theorem mem_separators_of_isBlank {c : Char} (h : Text.isBlank c = true) : c ∈ separators := by
  rw [← isWordChar_eq_false_iff]
  simp [isWordChar, h]

theorem isWordChar_of_not_startsComment {c : Char} {cs : List Char} (hblank : ¬Text.isBlank c = true)
    (hmark : mark? c = none) (hcomment : ¬startsComment c cs = true) (hstray : ¬(c == '/') = true) :
    isWordChar c = true := by
  have hsemicolon : c ≠ ';' := by
    rintro rfl
    exact hcomment rfl
  simp_all [isWordChar]

/-! ### Words -/

/-- The text is one word: it is not empty and has no blank or punctuation in it. -/
structure IsWord (text : String) : Prop where
  nonempty : text.toList ≠ []
  chars : ∀ c ∈ text.toList, isWordChar c = true

theorem isWord_iff {text : String} : IsWord text ↔ text.toList ≠ [] ∧ ∀ c ∈ text.toList, c ∉ separators := by
  constructor
  · rintro ⟨hne, hchars⟩
    exact ⟨hne, fun c hc => isWordChar_eq_true_iff.mp (hchars c hc)⟩
  · rintro ⟨hne, hchars⟩
    exact ⟨hne, fun c hc => isWordChar_eq_true_iff.mpr (hchars c hc)⟩

/-- Whether a text is a word can be computed. -/
theorem isWord_of_all {text : String} (h : (!text.toList.isEmpty && text.toList.all isWordChar) = true) : IsWord text := by
  rw [Bool.and_eq_true, Bool.not_eq_true', List.isEmpty_eq_false_iff, List.all_eq_true] at h
  exact ⟨h.1, h.2⟩

end Token

end Mac1
