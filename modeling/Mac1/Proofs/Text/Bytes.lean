import Mathlib.Data.String.Basic

/-! The order of texts is that of their bytes. The encoding of a character consists of the digits of its code point to the
    base 64, and the first byte tells how many there are, so a lower code point has the lower bytes. -/

namespace Mac1.Text

/-- The bytes of a text in UTF-8. -/
def bytes (s : String) : List UInt8 := s.toUTF8.data.toList

theorem bytes_eq_flatMap (s : String) : bytes s = s.toList.flatMap String.utf8EncodeChar := by
  rw [bytes, String.toUTF8, ← String.utf8Encode_toList, List.utf8Encode, List.data_toByteArray]

theorem ofNat_cons_lt {a b : Nat} (h : a < b) (hb : b < 256) (r r' : List UInt8) :
    UInt8.ofNat a :: r < UInt8.ofNat b :: r' := by
  refine List.cons_lt_cons_iff.mpr (.inl (UInt8.lt_iff_toNat_lt.mpr ?_))
  rwa [UInt8.toNat_ofNat', UInt8.toNat_ofNat', Nat.mod_eq_of_lt hb, Nat.mod_eq_of_lt (h.trans hb)]

/-! ### Digits -/

/-- The first digit of a number to the base 64, with a mark, and `k` further digits. -/
def digits (mark : Nat) : Nat → Nat → List UInt8
  | 0, n => [UInt8.ofNat (mark + n)]
  | k + 1, n => digits mark k (n / 64) ++ [UInt8.ofNat (n % 64 + 128)]

section Digits
variable {mark mark' k k' m n : Nat}

theorem div_pow_succ : n / 64 ^ (k + 1) = n / 64 / 64 ^ k := by
  rw [Nat.div_div_eq_div_mul, Nat.pow_succ']

theorem digits_eq_cons : ∃ tail, digits mark k n = UInt8.ofNat (mark + n / 64 ^ k) :: tail := by
  induction k generalizing n with
  | zero => exact ⟨[], by rw [digits, Nat.pow_zero, Nat.div_one]⟩
  | succ k ih =>
    obtain ⟨tail, htail⟩ := @ih (n / 64)
    exact ⟨_, by rw [digits, htail, div_pow_succ, List.cons_append]⟩

theorem digits_append_lt (h : m < n) (hfits : mark + n / 64 ^ k < 256) (r r' : List UInt8) :
    digits mark k m ++ r < digits mark k n ++ r' := by
  induction k generalizing m n r r' with
  | zero =>
    rw [Nat.pow_zero, Nat.div_one] at hfits
    exact ofNat_cons_lt (Nat.add_lt_add_left h mark) hfits _ _
  | succ k ih =>
    rw [digits, digits, List.append_assoc, List.append_assoc]
    have hdigit : m / 64 < n / 64 ∨ m / 64 = n / 64 ∧ m % 64 < n % 64 := by omega
    rcases hdigit with hhigh | ⟨hhigh, hlow⟩
    · exact ih hhigh (div_pow_succ ▸ hfits) _ _
    · rw [hhigh]
      exact List.append_left_lt (ofNat_cons_lt (by omega) (by omega) _ _)

theorem digits_append_lt_of_first (h : mark + m / 64 ^ k < mark' + n / 64 ^ k') (hfits : mark' + n / 64 ^ k' < 256)
    (r r' : List UInt8) : digits mark k m ++ r < digits mark' k' n ++ r' := by
  obtain ⟨tail, htail⟩ := @digits_eq_cons mark k m
  obtain ⟨tail', htail'⟩ := @digits_eq_cons mark' k' n
  rw [htail, htail']
  exact ofNat_cons_lt h hfits _ _

end Digits

/-! ### Characters and texts -/

section Order
variable {c d : Char} {s t : String}

theorem toNat_val_lt (c : Char) : c.val.toNat < 0x110000 := by
  rcases c.valid with h | ⟨-, h⟩
  · exact Nat.lt_trans h (by decide)
  · exact h

theorem utf8EncodeChar_eq_digits (c : Char) : String.utf8EncodeChar c =
    if c.val.toNat ≤ 0x7f then digits 0 0 c.val.toNat
    else if c.val.toNat ≤ 0x7ff then digits 0xc0 1 c.val.toNat
    else if c.val.toNat ≤ 0xffff then digits 0xe0 2 c.val.toNat
    else digits 0xf0 3 c.val.toNat := by
  have hvalid := toNat_val_lt c
  unfold String.utf8EncodeChar
  dsimp only
  generalize c.val.toNat = n at *
  simp only [digits, List.cons_append, List.nil_append, Nat.div_div_eq_div_mul, Nat.reduceMul, Nat.zero_add]
  split_ifs with hone htwo hthree
  · rfl
  · rw [show n / 64 % 32 + 0xc0 = 0xc0 + n / 64 by omega]
  · rw [show n / 4096 % 16 + 0xe0 = 0xe0 + n / 4096 by omega]
  · rw [show n / 262144 % 8 + 0xf0 = 0xf0 + n / 262144 by omega]

theorem utf8EncodeChar_append_lt (h : c < d) (r r' : List UInt8) :
    String.utf8EncodeChar c ++ r < String.utf8EncodeChar d ++ r' := by
  have hlt : c.val.toNat < d.val.toNat := UInt32.lt_iff_toNat_lt.mp h
  have hvalid := toNat_val_lt d
  rw [utf8EncodeChar_eq_digits, utf8EncodeChar_eq_digits]
  generalize c.val.toNat = m at *
  generalize d.val.toNat = n at *
  split_ifs
  all_goals first
    | exact digits_append_lt hlt (by omega) r r'
    | exact digits_append_lt_of_first (by omega) (by omega) r r'

theorem flatMap_utf8EncodeChar_lt {cs ds : List Char} (h : cs < ds) :
    cs.flatMap String.utf8EncodeChar < ds.flatMap String.utf8EncodeChar := by
  induction h with
  | nil =>
    obtain ⟨b, bs, hbytes⟩ := List.exists_cons_of_ne_nil String.utf8EncodeChar_ne_nil
    rw [List.flatMap_nil, List.flatMap_cons, hbytes]
    exact List.nil_lt_cons _ _
  | rel h =>
    rw [List.flatMap_cons, List.flatMap_cons]
    exact utf8EncodeChar_append_lt h _ _
  | cons _ ih =>
    rw [List.flatMap_cons, List.flatMap_cons]
    exact List.append_left_lt ih

theorem bytes_lt (h : s < t) : bytes s < bytes t := by
  rw [bytes_eq_flatMap, bytes_eq_flatMap]
  exact flatMap_utf8EncodeChar_lt (String.lt_iff_toList_lt.mp h)

end Order

end Mac1.Text
