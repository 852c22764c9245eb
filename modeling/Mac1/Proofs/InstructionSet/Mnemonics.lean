import Mac1.InstructionSet
import Mac1.Proofs.Text.Case

/-! The names that operations answer to. An instruction set compares the full uppercase form of a name with its mnemonics,
    `Opcode.ofMnemonic?` only looks past the case of ASCII letters. The two part ways at four letters: no other
    character beyond ASCII has an uppercase form that can be found in a mnemonic. -/

namespace Mac1

open Text (upper upperChar eqIgnoreAsciiCase)
open Text.Uppercase (Run expansions runs)

/-! ### Characters -/

namespace Text
variable {c : Char}

theorem upperChar_of_ascii (h : c.toNat < 128) : upperChar c = [c.toUpper] := if_pos h

theorem toLower_toUpper_of_ascii (h : c.toNat < 128) : c.toUpper.toLower = c.toLower :=
  forall_ascii (P := fun c => c.toUpper.toLower = c.toLower) (by decide) h

theorem upperChar_infix_upper {s : String} (h : c ∈ s.toList) : upperChar c <:+: (upper s).toList := by
  obtain ⟨before, after, hs⟩ := List.append_of_mem h
  refine ⟨before.flatMap upperChar, after.flatMap upperChar, ?_⟩
  rw [upper, String.toList_ofList, hs]
  simp

/-- A number that is no code point stands for the code point 0. -/
theorem toNat_ofNat_cases (n : Nat) : (Char.ofNat n).toNat = n ∨ (Char.ofNat n).toNat = 0 := by
  rw [Char.ofNat]
  by_cases h : n.isValidChar
  · rw [dif_pos h]
    exact .inl rfl
  · rw [dif_neg h]
    exact .inr rfl

/-- Only `ı` and `ſ` are mapped into ASCII by a run. -/
theorem Uppercase.Run.of_image_lt {r : Run} (hr : r ∈ runs) {n : Nat} (hcovers : r.covers n = true)
    (himage : r.image n < 128) : n ∈ [0x131, 0x17f] := by
  have hruns : ∀ r ∈ runs, 128 ≤ r.first + r.shift ∨ r.first = r.last ∧ r.first ∈ [0x131, 0x17f] := by
    decide +kernel
  simp only [Run.covers, Bool.and_eq_true, decide_eq_true_eq] at hcovers
  unfold Run.image at himage
  rcases hruns r hr with hshift | ⟨hsingle, hmem⟩
  · omega
  · obtain rfl : n = r.first := by omega
    exact hmem

end Text

/-! ### Mnemonics -/

namespace Opcode
variable {op op' : Opcode} {c : Char} {name : String}

theorem upper_mnemonic (op : Opcode) : upper op.mnemonic = op.mnemonic := by
  cases op <;> decide

theorem isUpper_of_mem_mnemonic (h : c ∈ op.mnemonic.toList) : 65 ≤ c.toNat ∧ c.toNat ≤ 90 ∧ c ≠ 'F' := by
  have hmnemonic : (op.mnemonic.toList.all fun c => 65 ≤ c.toNat ∧ c.toNat ≤ 90 ∧ c ≠ 'F') = true := by
    cases op <;> decide
  exact of_decide_eq_true (List.all_eq_true.mp hmnemonic c h)

theorem ofNat_notMem_mnemonic {n : Nat} (h : n < 65 ∨ 90 < n ∨ n = 70) : Char.ofNat n ∉ op.mnemonic.toList := by
  intro hmem
  obtain ⟨hlow, hhigh, hne⟩ := isUpper_of_mem_mnemonic hmem
  rcases Text.toNat_ofNat_cases n with hn | hn
  · rcases h with h | h | rfl
    · omega
    · omega
    · exact hne rfl
  · omega

/-- The letters beyond ASCII with an uppercase form that can be found in a mnemonic: `I`, `S`, `ST` and again `ST`. -/
def lookalikes : List Char := ['ı', 'ſ', 'ﬅ', 'ﬆ']

theorem not_ascii_of_mem_lookalikes (h : c ∈ lookalikes) : ¬c.toNat < 128 := by
  have hlookalikes : (lookalikes.all fun c => ¬c.toNat < 128) = true := by decide
  exact of_decide_eq_true (List.all_eq_true.mp hlookalikes c h)

/-- A character beyond ASCII with an uppercase form that stands in a mnemonic is one of these letters. -/
theorem mem_lookalikes_of_infix (h : upperChar c <:+: op.mnemonic.toList) (hascii : ¬c.toNat < 128) : c ∈ lookalikes := by
  rw [upperChar, if_neg hascii] at h
  rw [← Char.ofNat_toNat c]
  split at h
  · next n image hfound =>
    -- the only other expansion into letters of mnemonics is that of `ß`, but no mnemonic has two `S` in a row
    have hligature : ∀ n ∈ [0xfb05, 0xfb06], Char.ofNat n ∈ lookalikes := by decide
    have hexpansions : ∀ e ∈ expansions, e.1 ∈ [0xfb05, 0xfb06] ∨ e.2 = [83, 83] ∨
        ∃ n ∈ e.2, n < 65 ∨ 90 < n ∨ n = 70 := by decide +kernel
    obtain rfl : n = c.toNat := by simpa using List.find?_some hfound
    rcases hexpansions _ (List.mem_of_find?_eq_some hfound) with hmem | hdouble | ⟨n, hn, hother⟩
    · exact hligature _ hmem
    · have hmnemonic : ∀ op ∈ all, ¬[83, 83].map Char.ofNat <:+: op.mnemonic.toList := by decide +kernel
      dsimp only at hdouble
      exact absurd (hdouble ▸ h) (hmnemonic op (mem_all op))
    · exact absurd (h.mem (List.mem_map_of_mem hn)) (ofNat_notMem_mnemonic hother)
  · split at h
    · next run hrun =>
      have hletter : ∀ n ∈ [0x131, 0x17f], Char.ofNat n ∈ lookalikes := by decide
      refine hletter _ ?_
      have hcovers := List.find?_some hrun
      refine Text.Uppercase.Run.of_image_lt (List.mem_of_find?_eq_some hrun) hcovers ?_
      refine Nat.lt_of_not_le fun hle => ?_
      exact ofNat_notMem_mnemonic (.inr (.inl (by omega))) (h.mem List.mem_cons_self)
    · have hupper := (isUpper_of_mem_mnemonic (h.mem List.mem_cons_self)).2.1
      omega

/-! ### Names -/

theorem upper_eq_mnemonic (h : eqIgnoreAsciiCase op.mnemonic name = true) : upper name = op.mnemonic := by
  rw [← Text.upper_eq_of_eqIgnoreAsciiCase h, upper_mnemonic]

/-- A name in ASCII that has the mnemonic as its uppercase form differs from it only in case. -/
theorem eqIgnoreAsciiCase_of_upper (hascii : ∀ c ∈ name.toList, c.toNat < 128) (h : upper name = op.mnemonic) :
    eqIgnoreAsciiCase op.mnemonic name = true := by
  have hupper : name.toList.flatMap upperChar = name.toList.map Char.toUpper := by
    rw [List.flatMap_def, List.map_congr_left fun c hc => Text.upperChar_of_ascii (hascii c hc), ← List.flatMap_def,
      List.map_eq_flatMap]
  rw [eqIgnoreAsciiCase, beq_iff_eq, ← h, upper, String.toList_ofList, hupper, List.map_map]
  exact List.map_congr_left fun c hc => Text.toLower_toUpper_of_ascii (hascii c hc)

theorem ascii_of_eqIgnoreAsciiCase (h : eqIgnoreAsciiCase op.mnemonic name = true) (hc : c ∈ name.toList) :
    c.toNat < 128 := by
  refine Decidable.byContradiction fun hascii => ?_
  have hmem : c ∈ op.mnemonic.toList.map Char.toLower := by
    rw [beq_iff_eq.mp h, ← Text.toLower_of_not_ascii hascii]
    exact List.mem_map_of_mem hc
  obtain ⟨d, hd, rfl⟩ := List.mem_map.mp hmem
  have hd : d.toNat < 128 := Nat.lt_of_le_of_lt (isUpper_of_mem_mnemonic hd).2.1 (by decide)
  exact hascii (Text.forall_ascii (P := fun d => d.toLower.toNat < 128) (by decide) hd)

theorem ofMnemonic?_eq_some_iff : ofMnemonic? name = some op ↔ eqIgnoreAsciiCase op.mnemonic name = true := by
  have hsome {op : Opcode} (h : ofMnemonic? name = some op) : eqIgnoreAsciiCase op.mnemonic name = true := by
    rw [ofMnemonic?] at h
    have hcase := List.find?_some h
    exact hcase
  constructor
  · exact hsome
  · intro h
    cases hfound : ofMnemonic? name with
    | none => exact absurd h (List.find?_eq_none.mp hfound op (mem_all op))
    | some op' =>
      rw [mnemonic_injective ((upper_eq_mnemonic (hsome hfound)).symm.trans (upper_eq_mnemonic h))]

end Opcode

/-- For every sequence of operations, an instruction set finds under a name the operation that `Opcode.ofMnemonic?` finds
    there, if it is in the set, and no other; but for a name that is found although it has one of the letters `ı`, `ſ`,
    `ﬅ` and `ﬆ`. -/
theorem InstructionSet.lookups_agree_iff (ops : List Opcode) (name : String) :
    (∀ op, (ofList ops).get? name = some op ↔ Opcode.ofMnemonic? name = some op ∧ op ∈ ops) ↔
      (ofList ops).get? name = none ∨ ∀ c ∈ name.toList, c ∉ ['ı', 'ſ', 'ﬅ', 'ﬆ'] := by
  have hget {op : Opcode} : (ofList ops).get? name = some op ↔ op ∈ ops ∧ op.mnemonic = upper name := by
    rw [get?_eq_some_iff, mem_ofList]
  -- what is found by the case of ASCII letters is always found by the uppercase form
  have hfound {op : Opcode} (h : Opcode.ofMnemonic? name = some op ∧ op ∈ ops) : (ofList ops).get? name = some op :=
    hget.mpr ⟨h.2, (Opcode.upper_eq_mnemonic (Opcode.ofMnemonic?_eq_some_iff.mp h.1)).symm⟩
  constructor
  · intro hagree
    cases hop : (ofList ops).get? name with
    | none => exact .inl rfl
    | some op =>
      have hcase := Opcode.ofMnemonic?_eq_some_iff.mp ((hagree op).mp hop).1
      exact .inr fun c hc hmem => Opcode.not_ascii_of_mem_lookalikes hmem (Opcode.ascii_of_eqIgnoreAsciiCase hcase hc)
  · rintro (hnone | hplain) op
    · rw [hnone]
      exact ⟨nofun, fun h => hnone ▸ hfound h⟩
    · refine ⟨fun hop => ?_, hfound⟩
      obtain ⟨hmem, hname⟩ := hget.mp hop
      refine ⟨Opcode.ofMnemonic?_eq_some_iff.mpr (Opcode.eqIgnoreAsciiCase_of_upper (fun c hc => ?_) hname.symm), hmem⟩
      refine Decidable.byContradiction fun hascii => hplain c hc ?_
      exact Opcode.mem_lookalikes_of_infix (hname ▸ Text.upperChar_infix_upper hc) hascii

/-- The long `s` is such a letter: the full set finds an operation under `ſwap`, which is no mnemonic in any case. -/
theorem InstructionSet.lookups_differ_at_long_s : ¬∀ op, (ofList Opcode.all).get? "ſwap" = some op ↔
    Opcode.ofMnemonic? "ſwap" = some op ∧ op ∈ Opcode.all := by
  intro h
  have hget : (ofList Opcode.all).get? "ſwap" = some .swap := by decide +kernel
  have hnone : Opcode.ofMnemonic? "ſwap" = none := by decide +kernel
  cases hnone.symm.trans ((h .swap).mp hget).1

end Mac1
