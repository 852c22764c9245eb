import Mac1.Machine.Mutation

/-! Reading the log of an operation. A line of the log says what was set, and to which value, in a form that can be
    read without looking at anything else: `read_render` gives back each entry from its text. -/

namespace Mac1

namespace Mutation

/-- What follows some characters at the start of others. -/
def after? : List Char → List Char → Option (List Char)
  | [], cs => some cs
  | _ :: _, [] => none
  | a :: lead, c :: cs => if a = c then after? lead cs else none

theorem after?_append (lead cs : List Char) : after? lead (lead ++ cs) = some cs := by
  induction lead with
  | nil => rfl
  | cons a lead ih => rw [List.cons_append, after?, if_pos rfl, ih]

/-- The word that some characters denote. -/
def word? (cs : List Char) : Option Word := Word.ofDecimal? (String.ofList cs)

/-- An operand, as it stands between the brackets. -/
def operand? (cs : List Char) : Option Operand :=
  match after? "sp+".toList cs with
  | some offset => (word? offset).map .stack
  | none => (word? cs).map .cell

/-- The characters up to a closing bracket, and those from it on. -/
def cut (cs : List Char) : List Char × List Char := (cs.takeWhile (· != ']'), cs.dropWhile (· != ']'))

/-- An operand in brackets with its value. -/
def operandValue? (cs : List Char) : Option (Operand × Word) := do
  let (inside, rest) := cut (← after? "m[".toList cs)
  let operand ← operand? inside
  let value ← word? (← after? "]=".toList rest)
  return (operand, value)

/-- A cell, after its opening bracket, with the value that it is set to. -/
def cellValue? (cs : List Char) : Option (Nat × Word) := do
  let (inside, rest) := cut cs
  let address ← Decimal.value? (String.ofList inside)
  let value ← word? (← after? "] := ".toList rest)
  return (address.toNat, value)

/-- The forms of an entry: what its text starts with, and how the rest is read. -/
def forms : List (String × (List Char → Option Mutation)) :=
  [("ac := ", fun cs => (word? cs).map .ac),
    ("pc := ", fun cs => (word? cs).map .pc),
    ("sp := ", fun cs => (Decimal.value? (String.ofList cs)).map .sp),
    ("m[", fun cs => (cellValue? cs).map fun (address, value) => .cell address value),
    ("ac += ", fun cs => (operandValue? cs).map fun (operand, value) => .adding operand value),
    ("ac -= ", fun cs => (operandValue? cs).map fun (operand, value) => .subtracting operand value)]

/-- The entry that a line of the log stands for. -/
def read (text : String) : Option Mutation :=
  forms.findSome? fun form => (after? form.1.toList text.toList).bind form.2

/-! ### Numbers -/

theorem isDigit_of_mem_render {n : Int} {c : Char} (h : c ∈ (Decimal.render n).toList) :
    c = '-' ∨ c.isDigit = true := by
  rw [Decimal.render, String.toList_ofList] at h
  split at h
  · rcases List.mem_cons.mp h with h | h
    · exact .inl h
    · exact .inr (Decimal.isDigit_toDigits h)
  · exact .inr (Decimal.isDigit_toDigits h)

theorem not_mem_render {n : Int} {c : Char} (hsign : c ≠ '-') (hdigit : c.isDigit = false) :
    c ∉ (Decimal.render n).toList := by
  intro h
  rcases isDigit_of_mem_render h with h | h
  · exact hsign h
  · rw [hdigit] at h
    cases h

@[simp] theorem word?_render (w : Word) : word? w.render.toList = some w := by
  rw [word?, String.ofList_toList, Word.ofDecimal?_render]

theorem after?_sp_render (w : Word) : after? "sp+".toList w.render.toList = none := by
  have hs : 's' ∉ w.render.toList := not_mem_render (by decide) (by decide)
  cases hw : w.render.toList with
  | nil => rfl
  | cons c cs =>
    rw [hw, List.mem_cons, not_or] at hs
    exact if_neg hs.1

/-! ### Brackets -/

theorem cut_append {cs rest : List Char} (h : ']' ∉ cs) : cut (cs ++ ']' :: rest) = (cs, ']' :: rest) := by
  have hcs : ∀ c ∈ cs, (c != ']') = true := fun c hc => bne_iff_ne.mpr fun heq => h (heq ▸ hc)
  rw [cut, List.takeWhile_append_of_pos hcs, List.dropWhile_append_of_pos hcs]
  simp

theorem bracket_not_mem_render (n : Int) : ']' ∉ (Decimal.render n).toList := not_mem_render (by decide) (by decide)

theorem operand?_render (w : Word) : operand? w.render.toList = some (.cell w) := by
  rw [operand?, after?_sp_render, word?_render]
  rfl

theorem operand?_sp_render (w : Word) : operand? ("sp+".toList ++ w.render.toList) = some (.stack w) := by
  rw [operand?, after?_append]
  exact congrArg (Option.map Operand.stack) (word?_render w)

theorem operandValue?_of_operand? {inside : List Char} {operand : Operand} (hbracket : ']' ∉ inside)
    (h : operand? inside = some operand) (value : Word) :
    operandValue? ("m[".toList ++ (inside ++ ']' :: '=' :: value.render.toList)) = some (operand, value) := by
  rw [operandValue?, after?_append, Option.bind_eq_bind, Option.bind_some, cut_append hbracket]
  simp [h, after?]

theorem operandValue?_render (operand : Operand) (value : Word) :
    operandValue? (operand.render ++ "=" ++ value.render).toList = some (operand, value) := by
  cases operand with
  | cell address =>
    have htext : ((Operand.cell address).render ++ "=" ++ value.render).toList =
        "m[".toList ++ (address.render.toList ++ ']' :: '=' :: value.render.toList) := by simp [Operand.render]
    rw [htext]
    exact operandValue?_of_operand? (bracket_not_mem_render address.toInt) (operand?_render address) value
  | stack offset =>
    have htext : ((Operand.stack offset).render ++ "=" ++ value.render).toList =
        "m[".toList ++ (("sp+".toList ++ offset.render.toList) ++ ']' :: '=' :: value.render.toList) := by
      simp [Operand.render]
    have hbracket : ']' ∉ "sp+".toList ++ offset.render.toList := by
      rw [List.mem_append, not_or]
      exact ⟨by decide, bracket_not_mem_render offset.toInt⟩
    rw [htext]
    exact operandValue?_of_operand? hbracket (operand?_sp_render offset) value

theorem cellValue?_render (address : Nat) (value : Word) :
    cellValue? ((Decimal.render address).toList ++ "] := ".toList ++ value.render.toList) = some (address, value) := by
  have hcut : cut ((Decimal.render address).toList ++ "] := ".toList ++ value.render.toList) =
      ((Decimal.render address).toList, "] := ".toList ++ value.render.toList) := by
    rw [List.append_assoc]
    exact cut_append (bracket_not_mem_render _)
  rw [cellValue?, hcut]
  simp only [String.ofList_toList, Decimal.value?_render, after?_append, word?_render, Option.bind_eq_bind,
    Option.bind_some, Int.toNat_natCast, Option.pure_def]

/-! ### Forms -/

/-- Two texts differ where both have a character. -/
def differ (lead lead' : List Char) : Bool := (lead.zip lead').any fun (a, b) => a != b

theorem after?_eq_none {lead lead' : List Char} (h : differ lead lead' = true) (cs : List Char) :
    after? lead (lead' ++ cs) = none := by
  induction lead generalizing lead' with
  | nil => simp [differ] at h
  | cons a lead ih =>
    cases lead' with
    | nil => simp [differ] at h
    | cons b lead' =>
      rw [List.cons_append, after?]
      by_cases hab : a = b
      · rw [if_pos hab]
        exact ih (by simpa [differ, hab] using h)
      · rw [if_neg hab]

/-- No form starts like another, so the order in which they are tried does not matter. -/
theorem differ_of_mem_forms {form form' : String × (List Char → Option Mutation)} (h : form ∈ forms)
    (h' : form' ∈ forms) : form = form' ∨ differ form.1.toList form'.1.toList = true := by
  simp only [forms, List.mem_cons, List.not_mem_nil, or_false] at h h'
  rcases h with rfl | rfl | rfl | rfl | rfl | rfl <;> rcases h' with rfl | rfl | rfl | rfl | rfl | rfl <;>
    first | exact .inl rfl | exact .inr rfl

/-- A text that starts as a form says is read in this form. -/
theorem read_of_form {lead : String} {rest : List Char → Option Mutation} (hform : (lead, rest) ∈ forms) {text : String}
    {cs : List Char} {m : Mutation} (htext : text.toList = lead.toList ++ cs) (hrest : rest cs = some m) :
    read text = some m := by
  have hread : ∀ form ∈ forms, ∀ m', (after? form.1.toList text.toList).bind form.2 = some m' → m' = m := by
    intro form hmem m' hm'
    rw [htext] at hm'
    rcases differ_of_mem_forms hmem hform with rfl | hdiffer
    · rw [after?_append, Option.bind_some] at hm'
      exact Option.some.inj (hm'.symm.trans hrest)
    · rw [after?_eq_none hdiffer] at hm'
      cases hm'
  cases hfound : read text with
  | none =>
    have hnone := List.findSome?_eq_none_iff.mp hfound (lead, rest) hform
    rw [htext, after?_append, Option.bind_some] at hnone
    exact absurd (hnone.symm.trans hrest) nofun
  | some m' =>
    obtain ⟨form, hmem, hm'⟩ := List.exists_of_findSome?_eq_some hfound
    rw [hread form hmem m' hm']

/-- The text of an entry is read back as the entry. -/
theorem read_render (m : Mutation) : read m.render = some m := by
  cases m with
  | ac value =>
    have hform : ("ac := ", fun cs => (word? cs).map .ac) ∈ forms := .head _
    have htext : (Mutation.ac value).render.toList = "ac := ".toList ++ value.render.toList := String.toList_append
    have hvalue : (word? value.render.toList).map Mutation.ac = some (.ac value) := by
      rw [word?_render, Option.map_some]
    exact read_of_form hform htext hvalue
  | pc value =>
    have hform : ("pc := ", fun cs => (word? cs).map .pc) ∈ forms := .tail _ (.head _)
    have htext : (Mutation.pc value).render.toList = "pc := ".toList ++ value.render.toList := String.toList_append
    have hvalue : (word? value.render.toList).map Mutation.pc = some (.pc value) := by
      rw [word?_render, Option.map_some]
    exact read_of_form hform htext hvalue
  | sp offset =>
    have hform : ("sp := ", fun cs => (Decimal.value? (String.ofList cs)).map .sp) ∈ forms :=
      .tail _ (.tail _ (.head _))
    have htext : (Mutation.sp offset).render.toList = "sp := ".toList ++ (Decimal.render offset).toList :=
      String.toList_append
    refine read_of_form hform htext ?_
    rw [String.ofList_toList, Decimal.value?_render, Option.map_some]
  | cell address value =>
    have hform : ("m[", fun cs => (cellValue? cs).map fun (address, value) => .cell address value) ∈ forms :=
      .tail _ (.tail _ (.tail _ (.head _)))
    have htext : (Mutation.cell address value).render.toList =
        "m[".toList ++ ((Decimal.render address).toList ++ "] := ".toList ++ value.render.toList) := by
      simp only [render, String.toList_append, List.append_assoc]
    refine read_of_form hform htext ?_
    rw [cellValue?_render, Option.map_some]
  | adding operand value =>
    have hform : ("ac += ", fun cs =>
        (operandValue? cs).map fun (operand, value) => .adding operand value) ∈ forms :=
      .tail _ (.tail _ (.tail _ (.tail _ (.head _))))
    have htext : (Mutation.adding operand value).render.toList =
        "ac += ".toList ++ (operand.render ++ "=" ++ value.render).toList := by
      simp only [render, String.toList_append, List.append_assoc]
    refine read_of_form hform htext ?_
    rw [operandValue?_render, Option.map_some]
  | subtracting operand value =>
    have hform : ("ac -= ", fun cs =>
        (operandValue? cs).map fun (operand, value) => .subtracting operand value) ∈ forms :=
      .tail _ (.tail _ (.tail _ (.tail _ (.tail _ (.head _)))))
    have htext : (Mutation.subtracting operand value).render.toList =
        "ac -= ".toList ++ (operand.render ++ "=" ++ value.render).toList := by
      simp only [render, String.toList_append, List.append_assoc]
    refine read_of_form hform htext ?_
    rw [operandValue?_render, Option.map_some]

end Mutation

end Mac1
