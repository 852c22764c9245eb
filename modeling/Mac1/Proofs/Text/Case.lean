import Mac1.Text.Uppercase

/-! The full uppercase form of a text does not depend on the case of its ASCII letters. -/

namespace Mac1.Text

/-- What holds of each code point below 128 holds of the characters of ASCII. -/
theorem forall_ascii {P : Char → Prop} (h : ∀ n < 128, P (Char.ofNat n)) {c : Char} (hc : c.toNat < 128) : P c := by
  have := h c.toNat hc
  rwa [Char.ofNat_toNat] at this

theorem toLower_of_not_ascii {c : Char} (h : ¬c.toNat < 128) : c.toLower = c := by
  unfold Char.toLower
  refine dif_neg fun hletter => h ?_
  exact Nat.lt_of_le_of_lt (UInt32.le_iff_toNat_le.mp hletter.2) (by decide)

theorem eqIgnoreAsciiCase_trans {s t u : String} (h : eqIgnoreAsciiCase s t = true) (h' : eqIgnoreAsciiCase t u = true) :
    eqIgnoreAsciiCase s u = true :=
  beq_iff_eq.mpr ((beq_iff_eq.mp h).trans (beq_iff_eq.mp h'))

theorem upperChar_toLower (c : Char) : upperChar c.toLower = upperChar c := by
  by_cases h : c.toNat < 128
  · exact forall_ascii (P := fun c => upperChar c.toLower = upperChar c) (by decide) h
  · rw [toLower_of_not_ascii h]

theorem upper_eq_of_eqIgnoreAsciiCase {s t : String} (h : eqIgnoreAsciiCase s t = true) : upper s = upper t := by
  have hlower : ∀ cs : List Char, cs.flatMap upperChar = (cs.map Char.toLower).flatMap upperChar := fun cs => by
    rw [List.flatMap_map]
    exact congrArg (cs.flatMap ·) (funext fun c => (upperChar_toLower c).symm)
  unfold upper
  rw [hlower s.toList, hlower t.toList, beq_iff_eq.mp h]

end Mac1.Text
