import Mac1.Word

/-! Decimal integers: an optional sign, then at least one ASCII digit. The form of a text
    (`isDecimal`) and its value (`value?`) have no bound; only `Word.ofDecimal?` asks that the value
    fits in a word. What is written reads back: `value?_render`, `ofDecimal?_render`. -/

namespace Mac1.Decimal

/-- Whether a text starts with a minus sign, and what follows its sign. Only one sign is taken. -/
def sign : List Char → Bool × List Char
  | '-' :: cs => (true, cs)
  | '+' :: cs => (false, cs)
  | cs => (false, cs)

/-- The text is written as a decimal integer, whatever its size. -/
def isDecimal (s : String) : Bool :=
  let digits := (sign s.toList).2
  !digits.isEmpty && digits.all Char.isDigit

/-- The integer that a text denotes, if it is written as one. -/
def value? (s : String) : Option Int :=
  if isDecimal s then
    let (negative, digits) := sign s.toList
    let n := Nat.ofDigitChars 10 digits 0
    some (if negative then -n else n)
  else none

/-- The text of an integer: a minus sign if it is negative, and its digits without leading zeros. -/
def render (n : Int) : String :=
  let digits := Nat.toDigits 10 n.natAbs
  String.ofList (if n < 0 then '-' :: digits else digits)

theorem sign_of_isDigit {cs : List Char} (h : ∀ c ∈ cs, c.isDigit = true) : sign cs = (false, cs) := by
  unfold sign
  split
  · exact absurd (h '-' (by simp)) (by decide)
  · exact absurd (h '+' (by simp)) (by decide)
  · rfl

theorem isDigit_toDigits {n : Nat} {c : Char} (h : c ∈ Nat.toDigits 10 n) : c.isDigit = true :=
  Nat.isDigit_of_mem_toDigits (by decide) (by decide) h

theorem sign_toList_render (n : Int) : sign (render n).toList = (decide (n < 0), Nat.toDigits 10 n.natAbs) := by
  unfold render
  by_cases h : n < 0
  · simp [h, sign]
  · simp only [h, if_false, String.toList_ofList, decide_false]
    exact sign_of_isDigit fun _ hc => isDigit_toDigits hc

theorem isDecimal_render (n : Int) : isDecimal (render n) = true := by
  simp only [isDecimal, sign_toList_render, Bool.and_eq_true, Bool.not_eq_true', List.isEmpty_eq_false_iff,
    List.all_eq_true]
  exact ⟨Nat.toDigits_ne_nil, fun _ => isDigit_toDigits⟩

/-- A written integer reads back. -/
theorem value?_render (n : Int) : value? (render n) = some n := by
  simp only [value?, isDecimal_render, if_true, sign_toList_render, Nat.ofDigitChars_ten_toDigits,
    Option.some.injEq, decide_eq_true_eq]
  split <;> omega

end Mac1.Decimal

namespace Mac1.Word

/-- The word that a text denotes, if it is written as a decimal integer and fits in 64 bits. -/
def ofDecimal? (s : String) : Option Word :=
  (Decimal.value? s).bind fun v =>
    if Int64.minValue.toInt ≤ v ∧ v ≤ Int64.maxValue.toInt then some (Int64.ofInt v) else none

/-- The decimal text of a word. -/
def render (w : Word) : String := Decimal.render w.toInt

theorem ofDecimal?_render (w : Word) : ofDecimal? w.render = some w := by
  simp only [ofDecimal?, render, Decimal.value?_render, Option.bind_some]
  rw [if_pos ⟨Int64.minValue_le_toInt w, Int64.toInt_le w⟩, Int64.ofInt_toInt]

end Mac1.Word
