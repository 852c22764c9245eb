import Mac1.Text.Decimal

/-! Which texts are decimal integers. A text is written as an integer if it has at least one digit, no character but
    digits, and perhaps a sign in front; it then denotes one integer, and a word if the integer fits. -/

namespace Mac1.Decimal

/-- Some characters are digits, and at least one. -/
structure AreDigits (cs : List Char) : Prop where
  nonempty : cs ≠ []
  digits : ∀ c ∈ cs, c.isDigit = true

/-- Some characters are written as an integer. -/
inductive Writes : List Char → Int → Prop where
  | unsigned {digits : List Char} (h : AreDigits digits) : Writes digits (Nat.ofDigitChars 10 digits 0)
  | plus {digits : List Char} (h : AreDigits digits) : Writes ('+' :: digits) (Nat.ofDigitChars 10 digits 0)
  | minus {digits : List Char} (h : AreDigits digits) : Writes ('-' :: digits) (-Nat.ofDigitChars 10 digits 0)

/-- The integer that a sign and digits stand for. -/
def signed (negative : Bool) (digits : List Char) : Int :=
  if negative then -Nat.ofDigitChars 10 digits 0 else Nat.ofDigitChars 10 digits 0

theorem writes_iff {cs : List Char} {n : Int} :
    Writes cs n ↔ AreDigits (sign cs).2 ∧ n = signed (sign cs).1 (sign cs).2 := by
  constructor
  · intro h
    cases h with
    | unsigned h =>
      rw [sign_of_isDigit h.digits]
      exact ⟨h, rfl⟩
    | plus h => exact ⟨h, rfl⟩
    | minus h => exact ⟨h, rfl⟩
  · rintro ⟨h, rfl⟩
    revert h
    unfold sign
    split
    · exact .minus
    · exact .plus
    · exact .unsigned

theorem isDecimal_iff_areDigits {s : String} : isDecimal s = true ↔ AreDigits (sign s.toList).2 := by
  simp only [isDecimal, Bool.and_eq_true, Bool.not_eq_true', List.isEmpty_eq_false_iff, List.all_eq_true]
  exact ⟨fun h => ⟨h.1, h.2⟩, fun h => ⟨h.nonempty, h.digits⟩⟩

theorem value?_eq_some_iff {s : String} {n : Int} : value? s = some n ↔ Writes s.toList n := by
  rw [writes_iff, ← isDecimal_iff_areDigits]
  unfold value?
  split
  · next h => rw [Option.some.injEq, and_iff_right h, eq_comm]; rfl
  · next h => simp only [h, false_and, reduceCtorEq]

theorem isDecimal_iff {s : String} : isDecimal s = true ↔ ∃ n, Writes s.toList n := by
  simp only [writes_iff, isDecimal_iff_areDigits, exists_and_left, exists_eq, and_true]

end Mac1.Decimal

namespace Mac1.Word

/-- A text denotes a word exactly if it is written as the integer that the word stands for. -/
theorem ofDecimal?_eq_some_iff {s : String} {w : Word} : ofDecimal? s = some w ↔ Decimal.Writes s.toList w.toInt := by
  rw [← Decimal.value?_eq_some_iff, ofDecimal?, Option.bind_eq_some_iff]
  constructor
  · rintro ⟨n, hn, hw⟩
    split at hw
    · next hrange =>
      cases hw
      rwa [Int64.toInt_ofInt_of_le hrange.1 (Int.lt_of_le_of_lt hrange.2 (by decide))]
    · cases hw
  · intro h
    refine ⟨w.toInt, h, ?_⟩
    rw [if_pos ⟨Int64.minValue_le_toInt w, Int64.toInt_le w⟩, Int64.ofInt_toInt]

theorem ofDecimal?_eq_none_iff {s : String} : ofDecimal? s = none ↔ ∀ w : Word, ¬Decimal.Writes s.toList w.toInt := by
  simp only [← ofDecimal?_eq_some_iff, Option.eq_none_iff_forall_ne_some, ne_eq]

end Mac1.Word
