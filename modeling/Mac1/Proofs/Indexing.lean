import Std.Data.HashMap.Lemmas

/-! Items in an array, with the place of each by its key in a map beside it. A look-up goes to the place without a search,
    and finds what a search finds as long as both are kept in step. -/

namespace Mac1

/-- The map holds the place of each item under its key, and nothing else. So no two items share a key. -/
def Indexes {α : Type} (key : α → String) (items : Array α) (places : Std.HashMap String Nat) : Prop :=
  ∀ name place, places[name]? = some place ↔ ∃ a, items[place]? = some a ∧ key a = name

namespace Indexes
variable {α : Type} {key : α → String} {items items' : Array α} {places : Std.HashMap String Nat} {a : α} {name : String}

theorem empty : Indexes key #[] ∅ := by
  intro name place
  simp

theorem mem_iff (h : Indexes key items places) : name ∈ places ↔ ∃ a ∈ items, key a = name := by
  rw [Std.HashMap.mem_iff_isSome_getElem?, Option.isSome_iff_exists]
  constructor
  · rintro ⟨place, hplace⟩
    obtain ⟨a, ha, hname⟩ := (h name place).mp hplace
    exact ⟨a, Array.mem_of_getElem? ha, hname⟩
  · rintro ⟨a, ha, hname⟩
    obtain ⟨place, hplace⟩ := Array.mem_iff_getElem?.mp ha
    exact ⟨place, (h name place).mpr ⟨a, hplace, hname⟩⟩

/-- An item with a new key is entered behind the others. -/
theorem push (h : Indexes key items places) (hnew : key a ∉ places) :
    Indexes key (items.push a) (places.insert (key a) items.size) := by
  intro name place
  rw [Std.HashMap.getElem?_insert, Array.getElem?_push]
  by_cases hname : key a = name
  · subst hname
    -- no item before has this key, so its place is the one behind them all
    have hbefore : ¬∃ b, items[place]? = some b ∧ key b = key a := by
      rw [← h, Std.HashMap.getElem?_eq_none hnew]
      nofun
    rw [if_pos (beq_self_eq_true _)]
    split
    · next hplace => simp [hplace]
    · next hplace => simpa [Ne.symm hplace] using hbefore
  · rw [if_neg (by simpa using hname), h]
    split
    · next hplace => simp [hplace, hname]
    · rfl

/-- The places only depend on the keys. -/
theorem congr (h : Indexes key items places) (hkeys : items'.toList.map key = items.toList.map key) :
    Indexes key items' places := by
  have hkey (items : Array α) (name : String) (place : Nat) :
      (∃ a, items[place]? = some a ∧ key a = name) ↔ (items.toList.map key)[place]? = some name := by
    rw [List.getElem?_map, Array.getElem?_toList, Option.map_eq_some_iff]
  intro name place
  rw [h, hkey, hkey, hkeys]

/-- A place lies in the array, and the item there is the one that a search finds. Without a place there is none. -/
theorem find?_cases (h : Indexes key items places) (name : String) :
    (∃ place a, places[name]? = some place ∧ items[place]? = some a ∧ items.toList.find? (key · == name) = some a) ∨
      places[name]? = none ∧ items.toList.find? (key · == name) = none := by
  cases hfind : items.toList.find? (key · == name) with
  | none =>
    refine .inr ⟨Std.HashMap.getElem?_eq_none fun hmem => ?_, rfl⟩
    obtain ⟨a, ha, hname⟩ := h.mem_iff.mp hmem
    exact List.find?_eq_none.mp hfind a (Array.mem_toList_iff.mpr ha) (beq_iff_eq.mpr hname)
  | some a =>
    obtain ⟨place, hplace⟩ := Array.mem_iff_getElem?.mp (Array.mem_toList_iff.mp (List.mem_of_find?_eq_some hfind))
    have hname : key a = name := by simpa using List.find?_some hfind
    exact .inl ⟨place, a, (h name place).mpr ⟨a, hplace, hname⟩, hplace, rfl⟩

end Indexes

end Mac1
