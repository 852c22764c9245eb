import Mathlib.Data.List.Forall2

/-! Lists that are made item by item. A pass over a list writes one entry for each item that it selects and
    none for the others, so the entry of an item stands at the number of selected items before it.
    `Placed` says this by positions, and the lemmas for `[]` and `::` let a recursive pass be compared
    with it. -/

namespace Mac1

/-- The selected items have their entries in `out`, in order, and `out` holds nothing else. The entry of the
    item at position `n` is related to it by `R n`. -/
def Placed {α β : Type} (select : α → Bool) (R : Nat → α → β → Prop) (items : List α) (out : List β) : Prop :=
  out.length = items.countP select ∧
    ∀ n a, items[n]? = some a → select a = true → ∃ b, out[(items.take n).countP select]? = some b ∧ R n a b

/-! ### Positions -/

section Positions
variable {α : Type} {q : α → Bool} {l : List α}

theorem countP_take_succ {n : Nat} {a : α} (ha : l[n]? = some a) :
    (l.take (n + 1)).countP q = (l.take n).countP q + if q a then 1 else 0 := by
  rw [List.take_add_one, ha, List.countP_append]
  simp

theorem countP_take_mono {n n' : Nat} (h : n ≤ n') : (l.take n).countP q ≤ (l.take n').countP q := by
  rw [← List.take_append_drop n (l.take n'), List.take_take, Nat.min_eq_left h, List.countP_append]
  exact Nat.le_add_right _ _

theorem countP_take_le (n : Nat) : (l.take n).countP q ≤ l.countP q := by
  conv => rhs; rw [← List.take_append_drop n l, List.countP_append]
  exact Nat.le_add_right _ _

theorem countP_take_lt {n n' : Nat} {a : α} (ha : l[n]? = some a) (hq : q a = true) (h : n < n') :
    (l.take n).countP q < (l.take n').countP q := by
  have hstep := countP_take_succ (q := q) ha
  rw [hq, if_pos rfl] at hstep
  have : (l.take (n + 1)).countP q ≤ (l.take n').countP q := countP_take_mono h
  omega

theorem countP_take_lt_countP {n : Nat} {a : α} (ha : l[n]? = some a) (hq : q a = true) :
    (l.take n).countP q < l.countP q :=
  Nat.lt_of_lt_of_le (countP_take_lt ha hq (Nat.lt_succ_self n)) (countP_take_le _)

/-- If no item from one position up to another is selected, equally many are selected before both. -/
theorem countP_take_eq {n n' : Nat} (h : n ≤ n') (hneg : ∀ k a, l[k]? = some a → n ≤ k → k < n' → q a = false) :
    (l.take n).countP q = (l.take n').countP q := by
  induction h with
  | refl => rfl
  | @step n' hle ih =>
    have hbefore := ih fun k a ha hk hlt => hneg k a ha hk (Nat.lt_succ_of_lt hlt)
    cases ha : l[n']? with
    | none => rw [hbefore, List.take_add_one, ha, Option.toList_none, List.append_nil]
    | some a =>
      rw [hbefore, countP_take_succ ha, hneg n' a ha hle (Nat.lt_succ_self n')]
      rfl

theorem countP_take_eq_countP {n : Nat} (hneg : ∀ k a, l[k]? = some a → n ≤ k → q a = false) :
    (l.take n).countP q = l.countP q := by
  rcases Nat.le_total n l.length with hle | hle
  · rw [countP_take_eq hle fun k a ha hk _ => hneg k a ha hk, List.take_length]
  · rw [List.take_of_length_le hle]

theorem exists_position {i : Nat} (h : i < l.countP q) :
    ∃ n a, l[n]? = some a ∧ q a = true ∧ (l.take n).countP q = i := by
  induction l generalizing i with
  | nil => simp at h
  | cons a l ih =>
    by_cases ha : q a = true
    · cases i with
      | zero => exact ⟨0, a, rfl, ha, rfl⟩
      | succ i =>
        rw [List.countP_cons_of_pos ha] at h
        obtain ⟨n, b, hb, hq, hn⟩ := ih (Nat.lt_of_succ_lt_succ h)
        exact ⟨n + 1, b, hb, hq, by rw [List.take_succ_cons, List.countP_cons_of_pos ha, hn]⟩
    · rw [List.countP_cons_of_neg ha] at h
      obtain ⟨n, b, hb, hq, hn⟩ := ih h
      exact ⟨n + 1, b, hb, hq, by rw [List.take_succ_cons, List.countP_cons_of_neg ha, hn]⟩

end Positions

/-! ### One item after the other -/

section Steps
variable {α β : Type} {q : α → Bool} {R : Nat → α → β → Prop} {a : α} {l : List α} {out : List β}

theorem placed_nil : Placed q R [] out ↔ out = [] := by
  simp [Placed]

theorem placed_cons_of_neg (ha : ¬q a = true) : Placed q R (a :: l) out ↔ Placed q (fun n => R (n + 1)) l out := by
  unfold Placed
  rw [List.countP_cons_of_neg ha]
  refine and_congr_right fun _ => ⟨fun h n b hb hq => ?_, fun h n b hb hq => ?_⟩
  · have := h (n + 1) b hb hq
    rwa [List.take_succ_cons, List.countP_cons_of_neg ha] at this
  · cases n with
    | zero =>
      cases hb
      exact absurd hq ha
    | succ n =>
      rw [List.take_succ_cons, List.countP_cons_of_neg ha]
      exact h n b hb hq

theorem placed_cons_of_pos (ha : q a = true) :
    Placed q R (a :: l) out ↔ ∃ b rest, out = b :: rest ∧ R 0 a b ∧ Placed q (fun n => R (n + 1)) l rest := by
  unfold Placed
  rw [List.countP_cons_of_pos ha]
  constructor
  · rintro ⟨hlen, h⟩
    obtain ⟨b, hb, hR⟩ := h 0 a rfl ha
    cases out with
    | nil => simp at hlen
    | cons c rest =>
      obtain rfl : c = b := by simpa using hb
      refine ⟨c, rest, rfl, hR, by simpa using hlen, fun n d hd hq => ?_⟩
      have := h (n + 1) d hd hq
      rwa [List.take_succ_cons, List.countP_cons_of_pos ha, List.getElem?_cons_succ] at this
  · rintro ⟨b, rest, rfl, hR, hlen, h⟩
    refine ⟨by rw [List.length_cons, hlen], fun n d hd hq => ?_⟩
    cases n with
    | zero =>
      cases hd
      exact ⟨b, rfl, hR⟩
    | succ n =>
      rw [List.take_succ_cons, List.countP_cons_of_pos ha, List.getElem?_cons_succ]
      exact h n d hd hq

/-- The entries that a function picks out of the items. -/
theorem placed_filterMap {g : α → Option β} (hq : ∀ a, q a = (g a).isSome) (l : List α) :
    Placed q (fun _ a b => g a = some b) l (l.filterMap g) := by
  induction l with
  | nil => exact placed_nil.mpr rfl
  | cons a l ih =>
    cases hg : g a with
    | none => exact (placed_cons_of_neg (by simp [hq, hg])).mpr (by rwa [List.filterMap_cons_none hg])
    | some b => exact (placed_cons_of_pos (by simp [hq, hg])).mpr ⟨b, _, List.filterMap_cons_some hg, hg, ih⟩

end Steps

namespace Placed
variable {α β : Type} {q : α → Bool} {R : Nat → α → β → Prop} {l : List α} {out out' : List β}

theorem exists_item (h : Placed q R l out) {i : Nat} {b : β} (hb : out[i]? = some b) :
    ∃ n a, l[n]? = some a ∧ q a = true ∧ (l.take n).countP q = i ∧ R n a b := by
  obtain ⟨hlt, -⟩ := List.getElem?_eq_some_iff.mp hb
  obtain ⟨n, a, ha, hq, hn⟩ := exists_position (h.1 ▸ hlt)
  obtain ⟨c, hc, hR⟩ := h.2 n a ha hq
  rw [hn, hb] at hc
  cases hc
  exact ⟨n, a, ha, hq, hn, hR⟩

theorem mem_iff (h : Placed q R l out) {b : β} :
    b ∈ out ↔ ∃ n a, l[n]? = some a ∧ q a = true ∧ out[(l.take n).countP q]? = some b ∧ R n a b := by
  constructor
  · intro hb
    obtain ⟨i, hi⟩ := List.mem_iff_getElem?.mp hb
    obtain ⟨n, a, ha, hq, hn, hR⟩ := h.exists_item hi
    exact ⟨n, a, ha, hq, hn ▸ hi, hR⟩
  · rintro ⟨n, a, -, -, hb, -⟩
    exact List.mem_of_getElem? hb

theorem imp {R' : Nat → α → β → Prop} (h : Placed q R l out)
    (hR : ∀ n a b, l[n]? = some a → q a = true → R n a b → R' n a b) : Placed q R' l out :=
  ⟨h.1, fun n a ha hq => by
    obtain ⟨b, hb, hb'⟩ := h.2 n a ha hq
    exact ⟨b, hb, hR n a b ha hq hb'⟩⟩

/-- Entries that are determined by their items are determined as a list. -/
theorem unique (h : Placed q R l out) (h' : Placed q R l out')
    (hR : ∀ n a b b', l[n]? = some a → R n a b → R n a b' → b = b') : out = out' := by
  refine List.ext_getElem? fun i => ?_
  by_cases hi : i < l.countP q
  · obtain ⟨n, a, ha, hq, rfl⟩ := exists_position hi
    obtain ⟨b, hb, hRb⟩ := h.2 n a ha hq
    obtain ⟨b', hb', hRb'⟩ := h'.2 n a ha hq
    rw [hb, hb', hR n a b b' ha hRb hRb']
  · rw [List.getElem?_eq_none (h.1 ▸ Nat.le_of_not_lt hi), List.getElem?_eq_none (h'.1 ▸ Nat.le_of_not_lt hi)]

/-- Items that each have an entry have entries in order. -/
theorem exists_of_forall {R : Nat → α → β → Prop} {l : List α}
    (h : ∀ n a, l[n]? = some a → q a = true → ∃ b, R n a b) : ∃ out, Placed q R l out := by
  induction l generalizing R with
  | nil => exact ⟨[], placed_nil.mpr rfl⟩
  | cons a l ih =>
    obtain ⟨out, hout⟩ := ih (R := fun n => R (n + 1)) fun n b hb hq => h (n + 1) b hb hq
    by_cases ha : q a = true
    · obtain ⟨b, hb⟩ := h 0 a rfl ha
      exact ⟨b :: out, (placed_cons_of_pos ha).mpr ⟨b, out, rfl, hb, hout⟩⟩
    · exact ⟨out, (placed_cons_of_neg ha).mpr hout⟩

/-- A key that an entry shares with its item lists the keys of the items. -/
theorem map_eq_filterMap {γ : Type} {R : Nat → α → β → Prop} {l : List α} {out : List β} {f : β → γ}
    {g : α → Option γ} (h : Placed q R l out) (hq : ∀ a, q a = (g a).isSome)
    (hR : ∀ n a b, l[n]? = some a → R n a b → g a = some (f b)) : out.map f = l.filterMap g := by
  induction l generalizing R out with
  | nil => simp [placed_nil.mp h]
  | cons a l ih =>
    have hrest : ∀ n b c, l[n]? = some b → R (n + 1) b c → g b = some (f c) := fun n b c hb => hR (n + 1) b c hb
    by_cases ha : q a = true
    · obtain ⟨b, rest, rfl, hb, hplaced⟩ := (placed_cons_of_pos ha).mp h
      rw [List.map_cons, List.filterMap_cons, hR 0 a b rfl hb, ih hplaced hrest]
    · have hnone : g a = none := by simpa [hq] using ha
      rw [List.filterMap_cons, hnone, ih ((placed_cons_of_neg ha).mp h) hrest]

/-- If a property of entries is a property of their items, as many entries as items have it. -/
theorem countP_eq {R : Nat → α → β → Prop} {l : List α} {out : List β} {p : β → Bool} {p' : α → Bool}
    (h : Placed q R l out) (hp : ∀ a, p' a = true → q a = true)
    (hR : ∀ n a b, l[n]? = some a → R n a b → p b = p' a) : out.countP p = l.countP p' := by
  induction l generalizing R out with
  | nil => simp [placed_nil.mp h]
  | cons a l ih =>
    have hrest : ∀ n b c, l[n]? = some b → R (n + 1) b c → p c = p' b := fun n b c hb => hR (n + 1) b c hb
    by_cases ha : q a = true
    · obtain ⟨b, rest, rfl, hb, hplaced⟩ := (placed_cons_of_pos ha).mp h
      rw [List.countP_cons, List.countP_cons, hR 0 a b rfl hb, ih hplaced hrest]
    · rw [List.countP_cons_of_neg (mt (hp a) ha), ih ((placed_cons_of_neg ha).mp h) hrest]

end Placed

/-! ### Lists side by side -/

theorem map_eq_of_forall₂ {α β : Type} {R : α → α → Prop} {f : α → β} {l l' : List α} (h : List.Forall₂ R l l')
    (hf : ∀ a a', R a a' → f a' = f a) : l'.map f = l.map f := by
  induction h with
  | nil => rfl
  | cons ha _ ih => rw [List.map_cons, List.map_cons, hf _ _ ha, ih]

/-! ### Passes that may fail -/

theorem map_cons_eq_ok_iff {β ε : Type} {b : β} {rest : Except ε (List β)} {out : List β} :
    rest.map (b :: ·) = .ok out ↔ ∃ tail, rest = .ok tail ∧ out = b :: tail := by
  cases rest with
  | error e => simp [Except.map]
  | ok tail => simp [Except.map, eq_comm]

theorem bind_eq_ok_iff {α β ε : Type} {x : Except ε α} {f : α → Except ε β} {b : β} :
    x >>= f = .ok b ↔ ∃ a, x = .ok a ∧ f a = .ok b := by
  cases x with
  | error e => simp [bind, Except.bind]
  | ok a => simp [bind, Except.bind]

theorem bind_eq_error_iff {α β ε : Type} {x : Except ε α} {f : α → Except ε β} {e : ε} :
    x >>= f = .error e ↔ x = .error e ∨ ∃ a, x = .ok a ∧ f a = .error e := by
  cases x with
  | error e => simp [bind, Except.bind]
  | ok a => simp [bind, Except.bind]

theorem exists_eq_ok_of_map_toOption {α β ε : Type} {x : Except ε α} {f : α → β} {b : β}
    (h : x.toOption.map f = some b) : ∃ a, x = .ok a ∧ f a = b := by
  cases x with
  | error e => cases h
  | ok a => exact ⟨a, rfl, Option.some.inj h⟩

theorem map_eq_error_iff {α β ε : Type} {x : Except ε α} {f : α → β} {e : ε} :
    x.map f = .error e ↔ x = .error e := by
  cases x <;> simp [Except.map]

end Mac1
