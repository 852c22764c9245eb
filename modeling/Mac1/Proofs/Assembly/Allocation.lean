import Mac1.Assembly.Symbols
import Mac1.Proofs.Placement
import Mac1.Proofs.Assembly.Reading

/-! Where aliases lie. An address is claimed if it is special or written in some declaration of the program. The
    aliases that leave their address to the assembler get the unclaimed addresses in increasing order, so there
    must be enough of them; every other alias lies where its declaration says. -/

namespace Mac1

namespace SourceLine

/-- The line declares an alias. -/
def declaresAlias (l : SourceLine) : Bool := l.alias?.isSome

/-- The line declares an alias without an address. -/
def needsAddress (l : SourceLine) : Bool := l.alias?.any (·.address.isNone)

/-- The address is special, or written in a declaration. -/
def Claimed (lines : List SourceLine) (address : Nat) : Prop :=
  (∃ s ∈ SpecialAddress.all, s.address = address) ∨
    ∃ d ∈ aliases lines, d.address.map (·.toInt) = some (address : Int)

instance (lines : List SourceLine) (address : Nat) : Decidable (Claimed lines address) :=
  inferInstanceAs (Decidable (_ ∨ _))

/-- The addresses of a memory that are not claimed, in increasing order. -/
def unclaimed (memorySize : Nat) (lines : List SourceLine) : List Nat :=
  (List.range memorySize).filter fun address => ¬Claimed lines address

/-- The alias that is declared at position `n` lies at an address: the one that it is declared with, or else
    the next of the free ones, where each declaration without an address before it has taken one. -/
def Assigned (free : List Nat) (lines : List SourceLine) (n : Nat) (d : AliasDeclaration) (address : Nat) : Prop :=
  match d.address with
  | some a => address = a.toInt.toNat
  | none => free[(lines.take n).countP needsAddress]? = some address

/-- The alias is that of the declaration on the line at position `n`. -/
def IsAlias (free : List Nat) (lines : List SourceLine) (n : Nat) (l : SourceLine) (a : Alias) : Prop :=
  ∃ d address, l.alias? = some d ∧ Assigned free lines n d address ∧ a = ⟨d.name, address, d.value, some l.number⟩

/-! ### Unclaimed addresses -/

section Unclaimed
variable {memorySize : Nat} {lines : List SourceLine}

/-- The pass over the lines takes the written addresses as natural numbers, which loses nothing when they are
    not negative. -/
theorem mem_takenAddresses (h : Consistent memorySize lines) {address : Nat} :
    address ∈ SymbolTable.takenAddresses lines ↔ Claimed lines address := by
  have hnonneg : ∀ l ∈ lines, ∀ d, l.alias? = some d → ∀ a, d.address = some a → 0 ≤ a.toInt := fun l hl d hd a ha =>
    (h.addresses d (mem_aliases.mpr ⟨l, hl, hd⟩) a ha).1
  simp only [SymbolTable.takenAddresses, Claimed, List.mem_append, List.mem_map, List.mem_filterMap, mem_aliases,
    Option.map_eq_some_iff, Option.bind_eq_some_iff]
  refine or_congr_right ⟨?_, ?_⟩
  · rintro ⟨l, hl, a, ⟨d, hd, ha⟩, rfl⟩
    exact ⟨d, ⟨l, hl, hd⟩, a, ha, (Int.toNat_of_nonneg (hnonneg l hl d hd a ha)).symm⟩
  · rintro ⟨d, ⟨l, hl, hd⟩, a, ha, haddress⟩
    exact ⟨l, hl, a, ⟨d, hd, ha⟩, by omega⟩

/-- Among the first `k` addresses, all but the taken ones are free. -/
theorem le_length_filter_range_add (taken : List Nat) (k : Nat) :
    k ≤ ((List.range k).filter (· ∉ taken)).length + taken.length := by
  have hsplit := List.length_eq_countP_add_countP (· ∈ taken) (l := List.range k)
  have hnodup : ((List.range k).filter (· ∈ taken)).Nodup := List.nodup_range.filter _
  have hle : ((List.range k).filter (· ∈ taken)).length ≤ taken.length :=
    hnodup.length_le_of_subset fun a ha => by simpa using (List.mem_filter.mp ha).2
  simp only [List.length_range, List.countP_eq_length_filter, decide_eq_true_eq] at hsplit
  omega

/-- A bounded search for `count` free addresses finds the lowest ones of all. -/
theorem freeAddresses_eq_take (taken : List Nat) (count : Nat) :
    SymbolTable.freeAddresses memorySize taken count =
      ((List.range memorySize).filter (· ∉ taken)).take count := by
  unfold SymbolTable.freeAddresses
  rcases Nat.le_total memorySize (taken.length + count) with h | h
  · rw [Nat.min_eq_left h]
  · obtain ⟨k, rfl⟩ := Nat.exists_eq_add_of_le h
    have hcount := le_length_filter_range_add taken (taken.length + count)
    rw [Nat.min_eq_right h, List.range_add (n := taken.length + count), List.filter_append,
      List.take_append_of_le_length (by omega)]

theorem freeAddresses_takenAddresses (h : Consistent memorySize lines) (count : Nat) :
    SymbolTable.freeAddresses memorySize (SymbolTable.takenAddresses lines) count =
      (unclaimed memorySize lines).take count := by
  rw [freeAddresses_eq_take, unclaimed]
  congr 1
  exact List.filter_congr fun address _ => by simp [mem_takenAddresses h]

end Unclaimed

/-! ### Allocating -/

section Allocate
variable {free : List Nat} {lines : List SourceLine} {l : SourceLine}

theorem Assigned.unique {n : Nat} {d : AliasDeclaration} {address address' : Nat}
    (h : Assigned free lines n d address) (h' : Assigned free lines n d address') : address = address' := by
  unfold Assigned at h h'
  cases hd : d.address with
  | some a =>
    rw [hd] at h h'
    exact h.trans h'.symm
  | none =>
    rw [hd] at h h'
    exact Option.some.inj (h.symm.trans h')

theorem IsAlias.unique {n : Nat} {a a' : Alias} (h : IsAlias free lines n l a) (h' : IsAlias free lines n l a') :
    a = a' := by
  obtain ⟨d, address, hd, haddress, rfl⟩ := h
  obtain ⟨d', address', hd', haddress', rfl⟩ := h'
  obtain rfl := Option.some.inj (hd.symm.trans hd')
  rw [haddress.unique haddress']

/-- But for their addresses, the aliases are what the lines declare. -/
theorem map_of_placed_isAlias {γ : Type} {declared : List Alias} (g : String → Option Word → Option Nat → γ)
    (h : Placed declaresAlias (IsAlias free lines) lines declared) :
    declared.map (fun a => g a.name a.value a.line) =
      lines.filterMap fun l => l.alias?.map fun d => g d.name d.value (some l.number) := by
  refine h.map_eq_filterMap (fun l => ?_) ?_
  · rw [Option.isSome_map]
    rfl
  · rintro n l a - ⟨d, address, hd, -, rfl⟩
    rw [hd]
    rfl

/-- Behind a line that needs no address, the free addresses are the same. -/
theorem isAlias_cons_of_neg (h : ¬l.needsAddress = true) :
    (fun n => IsAlias free (l :: lines) (n + 1)) = IsAlias free lines := by
  funext n b a
  simp only [IsAlias, Assigned, List.take_succ_cons, List.countP_cons_of_neg h]

/-- A line that needs an address takes the first free one. -/
theorem isAlias_cons_of_pos {address : Nat} (h : l.needsAddress = true) :
    (fun n => IsAlias (address :: free) (l :: lines) (n + 1)) = IsAlias free lines := by
  funext n b a
  simp only [IsAlias, Assigned, List.take_succ_cons, List.countP_cons_of_pos h, List.getElem?_cons_succ]

theorem allocate_cons_of_none (free : List Nat) (hd : l.alias? = none) :
    SymbolTable.allocate free (l :: lines) = SymbolTable.allocate free lines := by
  rw [SymbolTable.allocate, hd]

theorem allocate_cons_of_written (free : List Nat) {d : AliasDeclaration} {a : Word} (hd : l.alias? = some d)
    (ha : d.address = some a) : SymbolTable.allocate free (l :: lines) =
      (SymbolTable.allocate free lines).map (⟨d.name, a.toInt.toNat, d.value, some l.number⟩ :: ·) := by
  rw [SymbolTable.allocate, hd]
  simp only [ha]

theorem allocate_cons_of_open (address : Nat) (free : List Nat) {d : AliasDeclaration} (hd : l.alias? = some d)
    (ha : d.address = none) : SymbolTable.allocate (address :: free) (l :: lines) =
      (SymbolTable.allocate free lines).map (⟨d.name, address, d.value, some l.number⟩ :: ·) := by
  rw [SymbolTable.allocate, hd]
  simp only [ha]

theorem allocate_nil_cons_of_open {d : AliasDeclaration} (hd : l.alias? = some d) (ha : d.address = none) :
    SymbolTable.allocate [] (l :: lines) = .error (l.error (.declaration .noFreeAddress)) := by
  rw [SymbolTable.allocate, hd]
  simp only [ha]

/-- Allocating succeeds exactly if there are enough free addresses, and then every alias has its address. -/
theorem allocate_eq_ok_iff {out : List Alias} : SymbolTable.allocate free lines = .ok out ↔
    lines.countP needsAddress ≤ free.length ∧ Placed declaresAlias (IsAlias free lines) lines out := by
  induction lines generalizing free out with
  | nil => simp [SymbolTable.allocate, placed_nil, eq_comm]
  | cons l lines ih =>
    cases hd : l.alias? with
    | none =>
      have hneeds : ¬l.needsAddress = true := by simp [needsAddress, hd]
      have hdeclares : ¬l.declaresAlias = true := by simp [declaresAlias, hd]
      rw [allocate_cons_of_none free hd, ih, List.countP_cons_of_neg hneeds, placed_cons_of_neg hdeclares,
        isAlias_cons_of_neg hneeds]
    | some d =>
      have hdeclares : l.declaresAlias = true := by simp [declaresAlias, hd]
      rw [placed_cons_of_pos hdeclares]
      cases ha : d.address with
      | some a =>
        have hneeds : ¬l.needsAddress = true := by simp [needsAddress, hd, ha]
        have hentry : IsAlias free (l :: lines) 0 l ⟨d.name, a.toInt.toNat, d.value, some l.number⟩ :=
          ⟨d, _, hd, by simp [Assigned, ha], rfl⟩
        rw [allocate_cons_of_written free hd ha, map_cons_eq_ok_iff, isAlias_cons_of_neg hneeds,
          List.countP_cons_of_neg hneeds]
        simp only [ih]
        constructor
        · rintro ⟨tail, ⟨hroom, hplaced⟩, rfl⟩
          exact ⟨hroom, _, tail, rfl, hentry, hplaced⟩
        · rintro ⟨hroom, b, tail, rfl, hb, hplaced⟩
          exact ⟨tail, ⟨hroom, hplaced⟩, by rw [hb.unique hentry]⟩
      | none =>
        have hneeds : l.needsAddress = true := by simp [needsAddress, hd, ha]
        rw [List.countP_cons_of_pos hneeds]
        cases free with
        | nil => simp [allocate_nil_cons_of_open hd ha]
        | cons a free =>
          have hentry : IsAlias (a :: free) (l :: lines) 0 l ⟨d.name, a, d.value, some l.number⟩ :=
            ⟨d, _, hd, by simp [Assigned, ha], rfl⟩
          rw [allocate_cons_of_open a free hd ha, map_cons_eq_ok_iff, isAlias_cons_of_pos hneeds, List.length_cons,
            Nat.add_le_add_iff_right]
          simp only [ih]
          constructor
          · rintro ⟨tail, ⟨hroom, hplaced⟩, rfl⟩
            exact ⟨hroom, _, tail, rfl, hentry, hplaced⟩
          · rintro ⟨hroom, b, tail, rfl, hb, hplaced⟩
            exact ⟨tail, ⟨hroom, hplaced⟩, by rw [hb.unique hentry]⟩

/-- Free addresses beyond those that the lines need do not matter. -/
theorem allocate_take (free : List Nat) {count : Nat} (h : lines.countP needsAddress ≤ count) :
    SymbolTable.allocate (free.take count) lines = SymbolTable.allocate free lines := by
  induction lines generalizing free count with
  | nil => rfl
  | cons l lines ih =>
    cases hd : l.alias? with
    | none =>
      rw [allocate_cons_of_none _ hd, allocate_cons_of_none _ hd]
      exact ih _ (by simpa [needsAddress, hd] using h)
    | some declared =>
      cases ha : declared.address with
      | some a =>
        rw [allocate_cons_of_written _ hd ha, allocate_cons_of_written _ hd ha,
          ih _ (by simpa [needsAddress, hd, ha] using h)]
      | none =>
        have hcount : lines.countP needsAddress + 1 ≤ count := by simpa [needsAddress, hd, ha] using h
        cases count with
        | zero => cases hcount
        | succ count =>
          cases free with
          | nil => rfl
          | cons address free =>
            rw [List.take_succ_cons, allocate_cons_of_open _ _ hd ha, allocate_cons_of_open _ _ hd ha,
              ih _ (Nat.le_of_succ_le_succ hcount)]

end Allocate

end SourceLine

end Mac1
