import Mathlib.Algebra.Group.Nat.Defs
import Mac1.Proofs.Assembly.Errors

/-! Which aliases get which addresses. Those that leave their address open take the unclaimed addresses from the lowest
    one on, in the order of their declarations, so no two of them share one and none gets an address that is special or
    written anywhere in the program. If there are fewer unclaimed addresses than such aliases, the program is refused
    on the line of the first alias that finds none left. -/

namespace Mac1

open SourceLine

namespace SourceLine

/-- The declarations that leave the address open, in order. -/
def unplaced (lines : List SourceLine) : List AliasDeclaration := (aliases lines).filter (·.address.isNone)

/-- The line declares an alias without an address, and so do `count` of the lines before it. -/
def NeedsAfter (count : Nat) (lines : List SourceLine) (l : SourceLine) : Prop :=
  ∃ before rest, lines = before ++ l :: rest ∧ l.needsAddress = true ∧ before.countP needsAddress = count

end SourceLine

/-- Where the aliases of a table lie, by the order of the declarations that leave their address open. -/
structure LowestFree (memorySize : Nat) (lines : List SourceLine) (t : SymbolTable) : Prop where
  allocated : ∀ (j : Nat) (d : AliasDeclaration), (unplaced lines)[j]? = some d →
    ∃ a, t.alias? d.name = some a ∧ (unclaimed memorySize lines)[j]? = some a.address
  written : ∀ d ∈ aliases lines, ∀ w, d.address = some w →
    ∃ a, t.alias? d.name = some a ∧ (a.address : Int) = w.toInt
  increasing : ∀ (i j : Nat) (d d' : AliasDeclaration) (a a' : Alias), i < j → (unplaced lines)[i]? = some d →
    (unplaced lines)[j]? = some d' → t.alias? d.name = some a → t.alias? d'.name = some a' → a.address < a'.address
  inside : ∀ d ∈ unplaced lines, ∀ a, t.alias? d.name = some a → a.address < memorySize
  free : ∀ d ∈ unplaced lines, ∀ a, t.alias? d.name = some a → ¬Claimed lines a.address

/-! ### Free addresses -/

namespace SourceLine
variable {memorySize : Nat} {lines : List SourceLine}

theorem mem_unclaimed {address : Nat} :
    address ∈ unclaimed memorySize lines ↔ address < memorySize ∧ ¬Claimed lines address := by
  simp [unclaimed]

theorem pairwise_unclaimed (memorySize : Nat) (lines : List SourceLine) :
    (unclaimed memorySize lines).Pairwise (· < ·) :=
  List.pairwise_lt_range.filter _

theorem placed_unplaced (lines : List SourceLine) :
    Placed needsAddress (fun _ l d => l.alias? = some d ∧ d.address = none) lines (unplaced lines) := by
  have hselect (l : SourceLine) : l.needsAddress = (l.alias?.filter (·.address.isNone)).isSome := by
    unfold needsAddress
    cases l.alias? with
    | none => rfl
    | some d => cases hd : d.address <;> simp [hd]
  rw [unplaced, aliases, List.filter_filterMap]
  refine (placed_filterMap hselect lines).imp ?_
  intro n l d _ _ hd
  simpa [Option.filter_eq_some_iff] using hd

/-- An address is allocated only if all lower ones are claimed or allocated, so it is at most the number of lines. -/
theorem Assigned.le_length (hc : Consistent memorySize lines) {n address : Nat} {l : SourceLine} {d : AliasDeclaration}
    (hl : lines[n]? = some l) (hd : l.alias? = some d) (hopen : d.address = none)
    (h : Assigned (unclaimed memorySize lines) lines n d address) : address ≤ lines.length := by
  have hneeds : l.needsAddress = true := by simp [needsAddress, hd, hopen]
  have hfound : (unclaimed memorySize lines)[(lines.take n).countP needsAddress]? = some address := by
    simpa only [Assigned, hopen] using h
  -- the search for as many addresses as are needed finds it below its bound
  have hmem : address ∈ SymbolTable.freeAddresses memorySize (SymbolTable.takenAddresses lines)
      (lines.countP needsAddress) := by
    rw [freeAddresses_takenAddresses hc]
    exact List.mem_of_getElem? ((List.getElem?_take_of_lt (countP_take_lt_countP hl hneeds)).trans hfound)
  have hlt := List.mem_range.mp (List.mem_filter.mp (List.mem_of_mem_take hmem)).1
  have htaken : (SymbolTable.takenAddresses lines).length ≤ 1 + lines.countP fun l => ¬l.needsAddress = true := by
    rw [SymbolTable.takenAddresses, List.length_append, List.length_filterMap_eq_countP]
    refine Nat.add_le_add (by decide) (List.countP_mono_left ?_)
    intro l _ hwritten
    unfold needsAddress
    cases hd : l.alias? with
    | none => rfl
    | some d => cases ha : d.address <;> simp [hd, ha] at hwritten ⊢
  have hsplit := List.length_eq_countP_add_countP needsAddress (l := lines)
  omega

end SourceLine

/-! ### Tables -/

section Tables
variable {memorySize : Nat} {lines : List SourceLine} {t : SymbolTable}

theorem SymbolTable.Tabulates.exists_allocated (h : t.Tabulates memorySize lines) (hc : Consistent memorySize lines)
    (hroom : lines.countP needsAddress ≤ (unclaimed memorySize lines).length) {j : Nat} {d : AliasDeclaration}
    (hd : (unplaced lines)[j]? = some d) :
    ∃ a, t.alias? d.name = some a ∧ (unclaimed memorySize lines)[j]? = some a.address := by
  obtain ⟨n, l, hl, hneeds, rfl, hdeclared, hopen⟩ := (placed_unplaced lines).exists_item hd
  have hlt := Nat.lt_of_lt_of_le (countP_take_lt_countP hl hneeds) hroom
  have hfree := List.getElem?_eq_getElem hlt
  refine ⟨_, (h.alias?_eq_some_iff hc).mpr (.inr ⟨n, l, d, _, hl, hdeclared, rfl, ?_, rfl⟩), hfree⟩
  simpa only [Assigned, hopen] using hfree

theorem SymbolTable.Tabulates.lowestFree (h : t.Tabulates memorySize lines) (hc : Consistent memorySize lines)
    (hroom : lines.countP needsAddress ≤ (unclaimed memorySize lines).length) : LowestFree memorySize lines t := by
  -- names are declared once, so a look-up finds the alias that was allocated
  have address {j : Nat} {d : AliasDeclaration} {a : Alias} (hd : (unplaced lines)[j]? = some d)
      (ha : t.alias? d.name = some a) : (unclaimed memorySize lines)[j]? = some a.address := by
    obtain ⟨b, hb, hfree⟩ := h.exists_allocated hc hroom hd
    rw [ha] at hb
    cases hb
    exact hfree
  have free {d : AliasDeclaration} {a : Alias} (hd : d ∈ unplaced lines) (ha : t.alias? d.name = some a) :
      a.address < memorySize ∧ ¬Claimed lines a.address := by
    obtain ⟨j, hj⟩ := List.mem_iff_getElem?.mp hd
    exact mem_unclaimed.mp (List.mem_of_getElem? (address hj ha))
  constructor
  case allocated => exact fun j d hd => h.exists_allocated hc hroom hd
  case written =>
    intro d hd w hw
    obtain ⟨l, hl, hdeclared⟩ := mem_aliases.mp hd
    obtain ⟨n, hn⟩ := List.mem_iff_getElem?.mp hl
    have hassigned : Assigned (unclaimed memorySize lines) lines n d w.toInt.toNat := by simp [Assigned, hw]
    refine ⟨_, (h.alias?_eq_some_iff hc).mpr (.inr ⟨n, l, d, _, hn, hdeclared, rfl, hassigned, rfl⟩), ?_⟩
    exact Int.toNat_of_nonneg (hc.addresses d hd w hw).1
  case increasing =>
    intro i j d d' a a' hij hd hd' ha ha'
    obtain ⟨hi, hfirst⟩ := List.getElem?_eq_some_iff.mp (address hd ha)
    obtain ⟨hj, hsecond⟩ := List.getElem?_eq_some_iff.mp (address hd' ha')
    rw [← hfirst, ← hsecond]
    exact List.pairwise_iff_getElem.mp (pairwise_unclaimed memorySize lines) i j hi hj hij
  case inside => exact fun d hd a ha => (free hd ha).1
  case free => exact fun d hd a ha => (free hd ha).2

/-- The addresses of a program with fewer lines than there are words that are not negative can be written as words. -/
theorem SymbolTable.Tabulates.toInt_address (h : t.Tabulates memorySize lines) (hc : Consistent memorySize lines)
    (hlength : lines.length < 2 ^ 63) {a : Alias} (ha : a ∈ t.aliases) : (Int64.ofNat a.address).toInt = a.address := by
  refine Int64.toInt_ofNat_of_lt ?_
  obtain ⟨declared, haliases, hdeclared⟩ := h.aliases
  rw [haliases, List.mem_append] at ha
  rcases ha with ha | ha
  · have hzero : ∀ a ∈ SpecialAddress.all.map Alias.ofSpecial, a.address = 0 := by decide
    rw [hzero a ha]
    decide
  · obtain ⟨n, l, hl, -, -, d, address, hd, haddress, rfl⟩ := hdeclared.mem_iff.mp ha
    cases hw : d.address with
    | none => exact Nat.lt_of_le_of_lt (haddress.le_length hc hl hd hw) hlength
    | some w =>
      have hsame : address = w.toInt.toNat := by simpa only [Assigned, hw] using haddress
      have := w.toInt_lt
      dsimp only
      omega

end Tables

/-! ### Running out -/

section RunningOut
variable {target : Target} {memorySize count : Nat} {lines : List SourceLine} {texts : List String} {l l' : SourceLine}
  {e : AssemblyError}

theorem SourceLine.needsAfter_cons_of_neg (h : ¬l'.needsAddress = true) :
    NeedsAfter count (l' :: lines) l ↔ NeedsAfter count lines l := by
  constructor
  · rintro ⟨before, rest, hlines, hneeds, hcount⟩
    cases before with
    | nil =>
      cases hlines
      exact absurd hneeds h
    | cons b before =>
      cases hlines
      exact ⟨before, rest, rfl, hneeds, by rwa [List.countP_cons_of_neg h] at hcount⟩
  · rintro ⟨before, rest, rfl, hneeds, hcount⟩
    exact ⟨l' :: before, rest, rfl, hneeds, by rwa [List.countP_cons_of_neg h]⟩

theorem SourceLine.needsAfter_succ_cons_of_pos (h : l'.needsAddress = true) :
    NeedsAfter (count + 1) (l' :: lines) l ↔ NeedsAfter count lines l := by
  constructor
  · rintro ⟨before, rest, hlines, hneeds, hcount⟩
    cases before with
    | nil => cases hcount
    | cons b before =>
      cases hlines
      rw [List.countP_cons_of_pos h] at hcount
      exact ⟨before, rest, rfl, hneeds, Nat.succ.inj hcount⟩
  · rintro ⟨before, rest, rfl, hneeds, rfl⟩
    exact ⟨l' :: before, rest, rfl, hneeds, List.countP_cons_of_pos h⟩

theorem SourceLine.needsAfter_zero_cons_of_pos (h : l'.needsAddress = true) :
    NeedsAfter 0 (l' :: lines) l ↔ l = l' := by
  constructor
  · rintro ⟨before, rest, hlines, -, hcount⟩
    cases before with
    | nil =>
      cases hlines
      rfl
    | cons b before =>
      cases hlines
      simp [List.countP_cons_of_pos h] at hcount
  · rintro rfl
    exact ⟨[], lines, rfl, h, rfl⟩

theorem SourceLine.exists_needsAfter_iff : (∃ l, NeedsAfter count lines l) ↔ count < lines.countP needsAddress := by
  induction lines generalizing count with
  | nil => simp [NeedsAfter]
  | cons l lines ih =>
    by_cases hneeds : l.needsAddress = true
    · rw [List.countP_cons_of_pos hneeds]
      cases count with
      | zero => simp [needsAfter_zero_cons_of_pos hneeds]
      | succ count => simp only [needsAfter_succ_cons_of_pos hneeds, ih, Nat.succ_lt_succ_iff]
    · simp only [needsAfter_cons_of_neg hneeds, ih, List.countP_cons_of_neg hneeds]

/-- Allocating fails on the line that finds all the free addresses taken. -/
theorem SymbolTable.allocate_eq_error_iff {free : List Nat} : allocate free lines = .error e ↔
    ∃ l, NeedsAfter free.length lines l ∧ e = l.error (.declaration .noFreeAddress) := by
  induction lines generalizing free with
  | nil => simp [allocate, NeedsAfter]
  | cons l lines ih =>
    cases hd : l.alias? with
    | none =>
      have hneeds : ¬l.needsAddress = true := by simp [needsAddress, hd]
      simp only [allocate_cons_of_none _ hd, ih, needsAfter_cons_of_neg hneeds]
    | some d =>
      cases ha : d.address with
      | some a =>
        have hneeds : ¬l.needsAddress = true := by simp [needsAddress, hd, ha]
        simp only [allocate_cons_of_written _ hd ha, map_eq_error_iff, ih, needsAfter_cons_of_neg hneeds]
      | none =>
        have hneeds : l.needsAddress = true := by simp [needsAddress, hd, ha]
        cases free with
        | nil => simp [allocate_nil_cons_of_open hd ha, needsAfter_zero_cons_of_pos hneeds, eq_comm]
        | cons a free =>
          simp only [allocate_cons_of_open _ _ hd ha, map_eq_error_iff, ih, List.length_cons,
            needsAfter_succ_cons_of_pos hneeds]

/-- The free addresses run out exactly if there are fewer of them than aliases that need one. -/
theorem SymbolTable.ofLines_eq_error_iff (hc : Consistent memorySize lines) : ofLines memorySize lines = .error e ↔
    ∃ l, NeedsAfter (unclaimed memorySize lines).length lines l ∧ e = l.error (.declaration .noFreeAddress) := by
  have htaken : ofLines memorySize lines = .error e ↔
      allocate ((unclaimed memorySize lines).take (lines.countP needsAddress)) lines = .error e := by
    rw [← freeAddresses_takenAddresses hc]
    exact map_eq_error_iff
  rw [htaken, allocate_take _ (Nat.le_refl (lines.countP needsAddress)), allocate_eq_error_iff]

theorem Target.assemble_eq_noFreeAddress_iff (hr : Reads texts lines) (hc : Consistent target.memorySize lines) :
    target.assemble texts = .error e ∧ e.cause = .declaration .noFreeAddress ↔
      ∃ l, NeedsAfter (unclaimed target.memorySize lines).length lines l ∧
        e = l.error (.declaration .noFreeAddress) := by
  have hread := readAll_eq_ok_iff.mpr ⟨hr, hc⟩
  rw [← SymbolTable.ofLines_eq_error_iff hc]
  constructor
  · rintro ⟨hfails, hcause⟩
    rcases assemble_eq_error_iff_passes.mp hfails with hfails | ⟨lines', hread', hfails | ⟨symbols, -, hfails⟩⟩
    · rw [hread] at hfails
      cases hfails
    · rw [hread] at hread'
      cases hread'
      exact hfails
    · obtain ⟨-, l, -, -, ⟨code, command, -, -, heffect⟩, -⟩ := exists_of_instructionsFrom_eq_error hfails
      exact absurd hcause (of_effect_eq_error heffect).2
  · intro hfails
    obtain ⟨l, -, rfl⟩ := (SymbolTable.ofLines_eq_error_iff hc).mp hfails
    exact ⟨assemble_eq_error_iff_passes.mpr (.inr ⟨lines, hread, .inl hfails⟩), rfl⟩

end RunningOut

/-- Aliases that leave their address open get the unclaimed addresses in increasing order, and the others keep theirs.
    A program whose lines can be read and agree lacks an address exactly if it has more such aliases than there are
    unclaimed addresses, and the error names the first of them that finds none left. -/
theorem Target.lowest_free_allocated (target : Target) (texts : List String) :
    (∀ p, target.assemble texts = .ok p →
      ∃ lines, Reads texts lines ∧ LowestFree target.memorySize lines p.symbols) ∧
    ∀ lines, Reads texts lines → Consistent target.memorySize lines →
      ((∃ e, target.assemble texts = .error e ∧ e.cause = .declaration .noFreeAddress) ↔
        (unclaimed target.memorySize lines).length < (unplaced lines).length) ∧
      ∀ e, target.assemble texts = .error e ∧ e.cause = .declaration .noFreeAddress ↔
        ∃ l, NeedsAfter (unclaimed target.memorySize lines).length lines l ∧
          e = l.error (.declaration .noFreeAddress) := by
  constructor
  · intro p hp
    obtain ⟨lines, hreads, hwell, hemitted⟩ := assemble_eq_ok_iff.mp hp
    exact ⟨lines, hreads, hemitted.symbols.lowestFree hwell.toConsistent hwell.room⟩
  · intro lines hreads hc
    refine ⟨?_, fun e => assemble_eq_noFreeAddress_iff hreads hc⟩
    simp only [assemble_eq_noFreeAddress_iff hreads hc]
    rw [exists_comm, (placed_unplaced lines).1, ← exists_needsAfter_iff]
    simp

/-- Three aliases, of which the second has an address. -/
def crowded : List String := ["#alias a", "#alias b @2 =7", "#alias c"]

/-- In a memory of four cells the last alias gets the last cell. In a memory of three there is none left for it. -/
theorem Target.lowest_free_allocated_crowded :
    (∃ p lines a, Target.assemble { memorySize := 4 } crowded = .ok p ∧ Reads crowded lines ∧
      LowestFree 4 lines p.symbols ∧ p.symbols.alias? "c" = some a ∧ a.address = 3) ∧
    ∃ lines e l, Reads crowded lines ∧ Consistent 3 lines ∧ Target.assemble { memorySize := 3 } crowded = .error e ∧
      NeedsAfter (unclaimed 3 lines).length lines l ∧ e = l.error (.declaration .noFreeAddress) ∧ e.lineNumber = 3 := by
  constructor
  · have hlast : (Target.assemble { memorySize := 4 } crowded).toOption.map (·.symbols.alias? "c") =
        some (some ⟨"c", 3, none, some 3⟩) := by
      decide +kernel
    obtain ⟨p, hp, ha⟩ := exists_eq_ok_of_map_toOption hlast
    obtain ⟨lines, hreads, hlowest⟩ := (Target.lowest_free_allocated { memorySize := 4 } crowded).1 p hp
    exact ⟨p, lines, _, hp, hreads, hlowest, ha, rfl⟩
  · have hread : (readAll 3 [] crowded).toOption.isSome = true := by decide +kernel
    have herror : (match Target.assemble { memorySize := 3 } crowded with | .error e => some e | .ok _ => none) =
        some ⟨.declaration .noFreeAddress, 3, "#alias c"⟩ := by
      decide +kernel
    cases hlines : readAll 3 [] crowded with
    | error e => rw [hlines] at hread; cases hread
    | ok lines =>
      obtain ⟨hreads, hc⟩ := readAll_eq_ok_iff.mp hlines
      cases he : Target.assemble { memorySize := 3 } crowded with
      | ok p => rw [he] at herror; cases herror
      | error e =>
        rw [he] at herror
        cases herror
        have hlacks := (Target.lowest_free_allocated { memorySize := 3 } crowded).2 lines hreads hc
        obtain ⟨l, hl, hsame⟩ := (hlacks.2 _).mp ⟨he, rfl⟩
        exact ⟨lines, _, l, hreads, hc, rfl, hl, hsame, rfl⟩

end Mac1
