import Mathlib.Algebra.Group.Int.Defs
import Mac1.Proofs.Assembly.FreeAddresses
import Mac1.Proofs.Line.Printing

/-! Numbers and names where an address is asked for. A text that is written as an integer is a number there, even one that
    is too large, and no alias has such a name, since a line that declares one is refused. Any other text is a name, even
    if it starts as numbers do; only if no alias has this name does its start decide what is wrong. -/

namespace Mac1

open SourceLine

/-- A text starts as numbers do, with a digit or a sign. -/
def StartsAsNumber (token : String) : Prop :=
  ∃ c, token.toList.head? = some c ∧ (c.isDigit = true ∨ c = '-' ∨ c = '+')

/-- What a parameter for a place comes to. A number stands for itself, and a name for the address of the alias that has it;
    both have to lie inside memory. -/
inductive SymbolTable.Settles (t : SymbolTable) (memorySize : Nat) (kind : ParameterKind) (token : String) :
    Except ParameterError Word → Prop where
  | number {x : Word} (h : Decimal.Writes token.toList x.toInt) (inside : Word.Inside memorySize x) :
    Settles t memorySize kind token (.ok x)
  | numberOutside {x : Word} (h : Decimal.Writes token.toList x.toInt) (outside : ¬Word.Inside memorySize x) :
    Settles t memorySize kind token (.error (.outOfRange x kind memorySize))
  | tooLarge {n : Int} (h : Decimal.Writes token.toList n) (hn : ¬(-2 ^ 63 ≤ n ∧ n ≤ 2 ^ 63 - 1)) :
    Settles t memorySize kind token (.error (.invalid token kind))
  | name {a : Alias} (h : IsName token) (mem : a ∈ t.aliases) (named : a.name = token)
    (inside : Word.Inside memorySize (Int64.ofNat a.address)) :
    Settles t memorySize kind token (.ok (Int64.ofNat a.address))
  | nameOutside {a : Alias} (h : IsName token) (mem : a ∈ t.aliases) (named : a.name = token)
    (outside : ¬Word.Inside memorySize (Int64.ofNat a.address)) :
    Settles t memorySize kind token (.error (.outOfRange (Int64.ofNat a.address) kind memorySize))
  | malformed (h : IsName token) (unnamed : ∀ a ∈ t.aliases, a.name ≠ token) (start : StartsAsNumber token) :
    Settles t memorySize kind token (.error (.invalid token kind))
  | unresolved (h : IsName token) (unnamed : ∀ a ∈ t.aliases, a.name ≠ token) (start : ¬StartsAsNumber token) :
    Settles t memorySize kind token (.error (.unresolved token))

/-! ### Numbers -/

theorem Decimal.Writes.unique {s : String} {m n : Int} (h : Writes s.toList m) (h' : Writes s.toList n) : m = n :=
  Option.some.inj ((value?_eq_some_iff.mpr h).symm.trans (value?_eq_some_iff.mpr h'))

namespace Word

theorem exists_toInt_iff {n : Int} : (∃ x : Word, x.toInt = n) ↔ -2 ^ 63 ≤ n ∧ n ≤ 2 ^ 63 - 1 := by
  constructor
  · rintro ⟨x, rfl⟩
    have hmin := x.le_toInt
    have hmax := x.toInt_lt
    omega
  · rintro ⟨hmin, hmax⟩
    exact ⟨Int64.ofInt n, Int64.toInt_ofInt_of_le hmin (by omega)⟩

/-- A text denotes a word exactly if it is written as an integer of 64 bits. -/
theorem exists_ofDecimal?_iff {s : String} {n : Int} : (∃ x, ofDecimal? s = some x ∧ x.toInt = n) ↔
    Decimal.Writes s.toList n ∧ -2 ^ 63 ≤ n ∧ n ≤ 2 ^ 63 - 1 := by
  rw [← exists_toInt_iff]
  constructor
  · rintro ⟨x, hx, rfl⟩
    exact ⟨ofDecimal?_eq_some_iff.mp hx, x, rfl⟩
  · rintro ⟨h, x, rfl⟩
    exact ⟨x, ofDecimal?_eq_some_iff.mpr h, rfl⟩

theorem ofDecimal?_eq_none_of_isName {s : String} (h : IsName s) : ofDecimal? s = none :=
  ofDecimal?_eq_none_iff.mpr fun x => h x.toInt

theorem ofDecimal?_eq_none_of_tooLarge {s : String} {n : Int} (h : Decimal.Writes s.toList n)
    (hn : ¬(-2 ^ 63 ≤ n ∧ n ≤ 2 ^ 63 - 1)) : ofDecimal? s = none := by
  rw [ofDecimal?_eq_none_iff]
  intro x hx
  exact hn (exists_toInt_iff.mp ⟨x, hx.unique h⟩)

end Word

theorem startsLikeDecimal_iff {token : String} :
    SymbolTable.startsLikeDecimal token = true ↔ StartsAsNumber token := by
  simp only [SymbolTable.startsLikeDecimal, StartsAsNumber, Option.any_eq_true, Bool.or_eq_true, beq_iff_eq, or_assoc]

/-- Every number starts as numbers do. -/
theorem Decimal.Writes.startsAsNumber {token : String} {n : Int} (h : Writes token.toList n) : StartsAsNumber token := by
  unfold StartsAsNumber
  generalize token.toList = cs at h
  cases h with
  | unsigned h =>
    obtain ⟨c, cs, rfl⟩ := List.exists_cons_of_ne_nil h.nonempty
    exact ⟨c, rfl, .inl (h.digits c List.mem_cons_self)⟩
  | plus h => exact ⟨'+', rfl, .inr (.inr rfl)⟩
  | minus h => exact ⟨'-', rfl, .inr (.inl rfl)⟩

/-! ### Names -/

section Names
variable {memorySize limit : Nat} {lines : List SourceLine} {texts : List String} {t : SymbolTable}
  {kind : ParameterKind} {token : String} {r : Except ParameterError Word}

theorem SourceLine.Reads.isName (h : Reads texts lines) {d : AliasDeclaration} (hd : d ∈ aliases lines) :
    IsName d.name := by
  obtain ⟨l, hl, hdeclared⟩ := mem_aliases.mp hd
  obtain ⟨comment, hread⟩ := h.statements l hl
  rw [alias?_eq_some_iff.mp hdeclared] at hread
  cases Statement.legal_of_read hread with
  | declares _ hname => exact hname

theorem SymbolTable.Tabulates.isName (h : t.Tabulates memorySize lines) (hr : Reads texts lines) {a : Alias}
    (ha : a ∈ t.aliases) : IsName a.name := by
  obtain ⟨declared, haliases, hdeclared⟩ := h.aliases
  rw [haliases, List.mem_append] at ha
  rcases ha with ha | ha
  · have hspecial : ∀ a ∈ SpecialAddress.all.map Alias.ofSpecial, Decimal.isDecimal a.name = false := by decide
    exact AliasDeclaration.isDecimal_eq_false_iff.mp (hspecial a ha)
  · obtain ⟨n, l, hl, -, -, d, address, hd, -, rfl⟩ := hdeclared.mem_iff.mp ha
    exact hr.isName (mem_aliases.mpr ⟨l, List.mem_of_getElem? hl, hd⟩)

theorem SymbolTable.alias?_eq_none_iff : t.alias? token = none ↔ ∀ a ∈ t.aliases, a.name ≠ token := by
  simp [alias?]

/-- The first constructor that fits is the way in which the parameter is resolved. -/
theorem SymbolTable.Tabulates.resolve_of_settles (h : t.Tabulates memorySize lines) (hc : Consistent memorySize lines)
    (hr : Reads texts lines) (hk : kind.IsPlace) (hs : t.Settles limit kind token r) :
    t.resolve limit kind token = r := by
  have unnamed {n : Int} (hn : Decimal.Writes token.toList n) : t.alias? token = none := by
    rw [alias?_eq_none_iff]
    rintro a ha rfl
    exact h.isName hr ha n hn
  have refused (hdecimal : Word.ofDecimal? token = none) (hnone : t.alias? token = none) :
      t.resolve limit kind token = .error (if startsLikeDecimal token then .invalid token kind else .unresolved token) :=
    resolve_place_of_none hk (by rw [hdecimal, hnone]; rfl)
  have named {a : Alias} (hname : IsName token) (ha : a ∈ t.aliases) (hsame : a.name = token) :
      (Word.ofDecimal? token).or ((t.alias? token).map (Int64.ofNat ·.address)) = some (Int64.ofNat a.address) := by
    rw [Word.ofDecimal?_eq_none_of_isName hname, ← hsame, h.alias?_of_mem hc ha]
    rfl
  cases hs with
  | number hx inside =>
    exact resolve_place_of_inside hk (by rw [Word.ofDecimal?_eq_some_iff.mpr hx]; rfl) inside
  | numberOutside hx outside =>
    exact resolve_place_of_outside hk (by rw [Word.ofDecimal?_eq_some_iff.mpr hx]; rfl) outside
  | tooLarge hn hlarge =>
    rw [refused (Word.ofDecimal?_eq_none_of_tooLarge hn hlarge) (unnamed hn),
      if_pos (startsLikeDecimal_iff.mpr hn.startsAsNumber)]
  | name hname mem hsame inside => exact resolve_place_of_inside hk (named hname mem hsame) inside
  | nameOutside hname mem hsame outside => exact resolve_place_of_outside hk (named hname mem hsame) outside
  | malformed hname hnone start =>
    rw [refused (Word.ofDecimal?_eq_none_of_isName hname) (alias?_eq_none_iff.mpr hnone),
      if_pos (startsLikeDecimal_iff.mpr start)]
  | unresolved hname hnone start =>
    rw [refused (Word.ofDecimal?_eq_none_of_isName hname) (alias?_eq_none_iff.mpr hnone),
      if_neg (mt startsLikeDecimal_iff.mp start)]

/-- Every text is a number or a name, so every parameter for a place comes to something. -/
theorem SymbolTable.exists_settles (t : SymbolTable) (limit : Nat) (kind : ParameterKind) (token : String) :
    ∃ r, t.Settles limit kind token r := by
  by_cases hnumber : ∃ n, Decimal.Writes token.toList n
  · obtain ⟨n, hn⟩ := hnumber
    by_cases hword : -2 ^ 63 ≤ n ∧ n ≤ 2 ^ 63 - 1
    · obtain ⟨x, rfl⟩ := Word.exists_toInt_iff.mpr hword
      by_cases inside : Word.Inside limit x
      · exact ⟨_, .number hn inside⟩
      · exact ⟨_, .numberOutside hn inside⟩
    · exact ⟨_, .tooLarge hn hword⟩
  · have hname : IsName token := not_exists.mp hnumber
    by_cases hnamed : ∃ a ∈ t.aliases, a.name = token
    · obtain ⟨a, mem, hsame⟩ := hnamed
      by_cases inside : Word.Inside limit (Int64.ofNat a.address)
      · exact ⟨_, .name hname mem hsame inside⟩
      · exact ⟨_, .nameOutside hname mem hsame inside⟩
    · have hnone : ∀ a ∈ t.aliases, a.name ≠ token := fun a ha hsame => hnamed ⟨a, ha, hsame⟩
      by_cases start : StartsAsNumber token
      · exact ⟨_, .malformed hname hnone start⟩
      · exact ⟨_, .unresolved hname hnone start⟩

end Names

/-- Numbers and names do not compete for a place. A number has one value, and it is a word if the value has 64 bits; no alias
    in a table that lines can make has a number for its name. So whether a parameter is a number or a name decides how it
    is resolved, in a memory of any size. -/
theorem SymbolTable.numbers_apart_from_names :
    (∀ s, (Decimal.isDecimal s = true ↔ ∃ n, Decimal.Writes s.toList n) ∧
      (∀ m n, Decimal.Writes s.toList m → Decimal.Writes s.toList n → m = n) ∧
      ∀ n, (∃ x, Word.ofDecimal? s = some x ∧ x.toInt = n) ↔
        Decimal.isDecimal s = true ∧ Decimal.Writes s.toList n ∧ -2 ^ 63 ≤ n ∧ n ≤ 2 ^ 63 - 1) ∧
    ∀ memorySize texts lines t, readAll memorySize [] texts = .ok lines → ofLines memorySize lines = .ok t →
      (∀ a ∈ t.aliases, Decimal.isDecimal a.name = false) ∧
      (texts.length < 2 ^ 63 → ∀ a ∈ t.aliases, (Int64.ofNat a.address).toInt = a.address) ∧
      ∀ limit kind token r, kind.IsPlace → (t.resolve limit kind token = r ↔ t.Settles limit kind token r) := by
  constructor
  · intro s
    refine ⟨Decimal.isDecimal_iff, fun _ _ hm hn => hm.unique hn, fun n => ?_⟩
    rw [Word.exists_ofDecimal?_iff]
    refine (and_iff_right_of_imp ?_).symm
    rintro ⟨hn, -⟩
    exact Decimal.isDecimal_iff.mpr ⟨n, hn⟩
  · intro memorySize texts lines t hread hsymbols
    obtain ⟨hr, hc⟩ := readAll_eq_ok_iff.mp hread
    obtain ⟨-, ht⟩ := (ofLines_eq_ok_iff hc).mp hsymbols
    refine ⟨?_, ?_, ?_⟩
    · intro a ha
      exact AliasDeclaration.isDecimal_eq_false_iff.mpr (ht.isName hr ha)
    · intro hlength a ha
      exact ht.toInt_address hc (hr.length_eq ▸ hlength) ha
    · intro limit kind token r hk
      refine ⟨?_, ht.resolve_of_settles hc hr hk⟩
      rintro rfl
      obtain ⟨r, hr'⟩ := exists_settles t limit kind token
      rwa [ht.resolve_of_settles hc hr hk hr']

/-- Aliases whose names start as numbers do. -/
def ordinals : List String := ["#alias 1st @5", "#alias -x =3", "LODD 1st"]

/-- Such a name stands for its address, while a number that is too large and a name that nothing has are refused alike. -/
theorem SymbolTable.numbers_apart_from_names_ordinals : ∃ lines t, readAll 65536 [] ordinals = .ok lines ∧
    ofLines 65536 lines = .ok t ∧ t.resolve 65536 .address "1st" = .ok 5 ∧
    t.resolve 4 .address "1st" = .error (.outOfRange 5 .address 4) ∧
    t.resolve 65536 .stackOffset "+9223372036854775808" = .error (.invalid "+9223372036854775808" .stackOffset) ∧
    t.resolve 65536 .address "2nd" = .error (.invalid "2nd" .address) := by
  have hlines : (readAll 65536 [] ordinals).toOption.map (fun lines => (ofLines 65536 lines).toOption.map (·.aliases)) =
      some (some [⟨"one", 0, none, none⟩, ⟨"1st", 5, none, some 1⟩, ⟨"-x", 1, some 3, some 2⟩]) := by
    decide +kernel
  obtain ⟨lines, hread, hlines⟩ := exists_eq_ok_of_map_toOption hlines
  obtain ⟨t, hsymbols, haliases⟩ := exists_eq_ok_of_map_toOption hlines
  obtain ⟨-, -, hsettles⟩ := SymbolTable.numbers_apart_from_names.2 65536 ordinals lines t hread hsymbols
  have hfirst : (⟨"1st", 5, none, some 1⟩ : Alias) ∈ t.aliases := by
    rw [haliases]
    decide
  have hname {name : String} (h : Decimal.isDecimal name = false) : IsName name :=
    AliasDeclaration.isDecimal_eq_false_iff.mp h
  have htooLarge : Decimal.Writes "+9223372036854775808".toList 9223372036854775808 :=
    Decimal.value?_eq_some_iff.mp (by decide)
  refine ⟨lines, t, hread, hsymbols, ?_, ?_, ?_, ?_⟩
  · exact (hsettles _ _ _ _ (.inr rfl)).mpr (.name (hname (by decide)) hfirst rfl ⟨by decide, by decide⟩)
  · exact (hsettles _ _ _ _ (.inr rfl)).mpr
      (.nameOutside (hname (by decide)) hfirst rfl fun inside => absurd inside.2 (by decide))
  · exact (hsettles _ _ _ _ (.inl rfl)).mpr (.tooLarge htooLarge (by decide))
  · refine (hsettles _ _ _ _ (.inr rfl)).mpr (.malformed (hname (by decide)) ?_ ⟨'2', by decide⟩)
    rw [haliases]
    decide

end Mac1
