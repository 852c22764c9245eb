import Mathlib.Data.List.Nodup
import Mac1.Proofs.Assembly.FreeAddresses
import Mac1.Proofs.Assembly.Labels
import Mac1.Proofs.Assembly.Rearrangement
import Mac1.Proofs.Line.Printing

/-! Addresses that are written down stay where they were. If some of the aliases that leave their address open are
    declared with the address that they got, these addresses are claimed and leave the list of the unclaimed ones,
    each at the place where its alias took it. The other aliases go on to take the same addresses as before, so the
    program that is assembled is the same to the last line number. -/

namespace Mac1

open SourceLine

/-- The second declaration is the first one with the address that the table has for its alias. -/
inductive Pins (t : SymbolTable) : AliasDeclaration → AliasDeclaration → Prop where
  | mk {name : String} {value : Option Word} {a : Alias} {w : Word} (found : t.alias? name = some a)
    (address : w.toInt = a.address) : Pins t { name, value } { name, address := some w, value }

/-- On the chosen lines the address of an alias is written down; the other lines stay as they are. -/
structure Pinned (t : SymbolTable) (chosen : Nat → Bool) (texts texts' : List String) : Prop where
  length : texts'.length = texts.length
  pins : ∀ (n : Nat) (text text' : String), chosen n = true → texts[n]? = some text → texts'[n]? = some text' →
    ∃ d d', Line.declaration? text = some d ∧ Line.declaration? text' = some d' ∧ Pins t d d'
  others : ∀ n, chosen n = false → texts'[n]? = texts[n]?

/-- A source line before and after its address may have been written down. -/
inductive PinsLine (t : SymbolTable) : SourceLine → SourceLine → Prop where
  | same (l : SourceLine) : PinsLine t l l
  | pinned {l l' : SourceLine} {d d' : AliasDeclaration} (number : l'.number = l.number) (declared : l.alias? = some d)
    (written : l'.alias? = some d') (pins : Pins t d d') : PinsLine t l l'

/-! ### Lines -/

section Lines
variable {t : SymbolTable} {lines lines' : List SourceLine} {l l' : SourceLine} {texts texts' : List String}

theorem Line.declaration?_eq_some_iff {text : String} {d : AliasDeclaration} :
    declaration? text = some d ↔ ∃ comment, read text = .ok ⟨.alias d, comment⟩ := by
  unfold declaration?
  cases hread : read text with
  | error e => simp
  | ok line =>
    obtain ⟨statement, comment⟩ := line
    cases statement <;> simp

theorem SourceLine.Reads.alias?_eq (h : Reads texts lines) (hl : l ∈ lines) : l.alias? = Line.declaration? l.text := by
  obtain ⟨comment, hread⟩ := h.statements l hl
  exact alias?_of_read hread

theorem SourceLine.code?_of_alias? {d : AliasDeclaration} (h : l.alias? = some d) : l.code? = none := by
  rw [code?, alias?_eq_some_iff.mp h]

theorem Pinned.readable {chosen : Nat → Bool} (h : Pinned t chosen texts texts') (hr : Reads texts lines) :
    ∀ text' ∈ texts', (Line.read text').isOk = true := by
  intro text' htext'
  obtain ⟨n, hn⟩ := List.mem_iff_getElem?.mp htext'
  have hlt : n < texts.length := h.length ▸ (List.getElem?_eq_some_iff.mp hn).1
  cases hchosen : chosen n with
  | true =>
    obtain ⟨d, d', -, hwritten, -⟩ := h.pins n _ _ hchosen (List.getElem?_eq_getElem hlt) hn
    obtain ⟨comment, hread⟩ := Line.declaration?_eq_some_iff.mp hwritten
    rw [hread]
    rfl
  | false =>
    rw [h.others n hchosen, ← hr.texts, List.getElem?_map, Option.map_eq_some_iff] at hn
    obtain ⟨l, hl, rfl⟩ := hn
    obtain ⟨comment, hread⟩ := hr.statements l (List.mem_of_getElem? hl)
    rw [hread]
    rfl

theorem Pinned.forall₂ {chosen : Nat → Bool} (h : Pinned t chosen texts texts') (hr : Reads texts lines)
    (hr' : Reads texts' lines') : List.Forall₂ (PinsLine t) lines lines' := by
  have hlength : lines.length = lines'.length := by rw [hr.length_eq, hr'.length_eq, h.length]
  refine List.forall₂_iff_get.mpr ⟨hlength, ?_⟩
  intro n hn hn'
  have hl := List.getElem?_eq_getElem hn
  have hl' := List.getElem?_eq_getElem hn'
  rw [List.get_eq_getElem, List.get_eq_getElem]
  generalize lines[n] = l at hl
  generalize lines'[n] = l' at hl'
  have hmem := List.mem_of_getElem? hl
  have hmem' := List.mem_of_getElem? hl'
  have htext : texts[n]? = some l.text := by rw [← hr.texts, List.getElem?_map, hl, Option.map_some]
  have htext' : texts'[n]? = some l'.text := by rw [← hr'.texts, List.getElem?_map, hl', Option.map_some]
  have hnumber : l'.number = l.number := (hr'.numbers n l' hl').trans (hr.numbers n l hl).symm
  cases hchosen : chosen n with
  | true =>
    obtain ⟨d, d', hdeclared, hwritten, hpins⟩ := h.pins n _ _ hchosen htext htext'
    exact .pinned hnumber ((hr.alias?_eq hmem).trans hdeclared) ((hr'.alias?_eq hmem').trans hwritten) hpins
  | false =>
    have hsame : l'.text = l.text := by
      rw [h.others n hchosen, htext] at htext'
      exact (Option.some.inj htext').symm
    have hline : IsLine texts l' := by
      obtain ⟨comment, hread⟩ := hr'.statements l' hmem'
      exact ⟨n, comment, hr'.numbers n l' hl', by rw [htext, hsame], hread⟩
    cases hr.eq_of_number (hr.mem_iff.mpr hline) hmem hnumber
    exact .same l

section Line
variable (h : PinsLine t l l')
include h

theorem PinsLine.number_eq : l'.number = l.number := by
  cases h with
  | same => rfl
  | pinned number => exact number

theorem PinsLine.code?_eq : l'.code? = l.code? := by
  cases h with
  | same => rfl
  | pinned _ declared written => rw [code?_of_alias? declared, code?_of_alias? written]

theorem PinsLine.aliasName?_eq : aliasName? l' = aliasName? l := by
  cases h with
  | same => rfl
  | pinned _ declared written pins =>
    cases pins
    rw [aliasName?, aliasName?, declared, written, Option.map_some, Option.map_some]

theorem PinsLine.any_value_eq : (l'.alias?.any (·.value.isSome)) = l.alias?.any (·.value.isSome) := by
  cases h with
  | same => rfl
  | pinned _ declared written pins =>
    cases pins
    rw [declared, written, Option.any_some, Option.any_some]

end Line

end Lines

/-! ### Declarations -/

section Declarations
variable {memorySize : Nat} {t : SymbolTable} {lines lines' : List SourceLine}

theorem code_eq_of_pins (h : List.Forall₂ (PinsLine t) lines lines') :
    lines'.filterMap (·.code?) = lines.filterMap (·.code?) := by
  have hmap := map_eq_of_forall₂ h fun _ _ hl => hl.code?_eq
  simpa [List.filterMap_map] using congrArg (List.filterMap id) hmap

theorem names_eq_of_pins (h : List.Forall₂ (PinsLine t) lines lines') :
    (aliases lines').map (·.name) = (aliases lines).map (·.name) := by
  have hmap := map_eq_of_forall₂ h fun _ _ hl => hl.aliasName?_eq
  have hnames (lines : List SourceLine) : (aliases lines).map (·.name) = (lines.map aliasName?).filterMap id := by
    rw [aliases, List.map_filterMap, List.filterMap_map]
    rfl
  rw [hnames, hnames, hmap]

theorem initialCount_eq_of_pins (h : List.Forall₂ (PinsLine t) lines lines') :
    SymbolTable.initialCount lines' = SymbolTable.initialCount lines := by
  have hmap := map_eq_of_forall₂ h fun _ _ hl => hl.any_value_eq
  simpa [SymbolTable.initialCount, List.countP_map, Function.comp_def] using congrArg (List.countP id) hmap

theorem exists_of_forall₂ {α : Type} {R : α → α → Prop} {l l' : List α} (h : List.Forall₂ R l l') {a' : α}
    (ha' : a' ∈ l') : ∃ a ∈ l, R a a' := by
  induction h with
  | nil => cases ha'
  | @cons b b' l l' hb _ ih =>
    rcases List.mem_cons.mp ha' with rfl | ha'
    · exact ⟨b, List.mem_cons_self, hb⟩
    · obtain ⟨a, ha, hR⟩ := ih ha'
      exact ⟨a, List.mem_cons_of_mem b ha, hR⟩

/-- Every declaration of the second lines is one of the first, or writes down the address of one that left it open. -/
theorem mem_aliases_of_pins (h : List.Forall₂ (PinsLine t) lines lines') {d' : AliasDeclaration}
    (hd' : d' ∈ aliases lines') : d' ∈ aliases lines ∨ ∃ d ∈ unplaced lines, Pins t d d' := by
  obtain ⟨l', hl', hdeclared⟩ := mem_aliases.mp hd'
  obtain ⟨l, hl, hline⟩ := exists_of_forall₂ h hl'
  cases hline with
  | same => exact .inl (mem_aliases.mpr ⟨_, hl, hdeclared⟩)
  | pinned _ declared written pins =>
    rw [written] at hdeclared
    cases hdeclared
    refine .inr ⟨_, List.mem_filter.mpr ⟨mem_aliases.mpr ⟨l, hl, declared⟩, ?_⟩, pins⟩
    cases pins
    rfl

theorem mem_aliases_of_written (h : List.Forall₂ (PinsLine t) lines lines') {d : AliasDeclaration}
    (hd : d ∈ aliases lines) (hwritten : d.address ≠ none) : d ∈ aliases lines' := by
  obtain ⟨l, hl, hdeclared⟩ := mem_aliases.mp hd
  have hflip : List.Forall₂ (fun l' l => PinsLine t l l') lines' lines := h.flip
  obtain ⟨l', hl', hline⟩ := exists_of_forall₂ hflip hl
  cases hline with
  | same => exact mem_aliases.mpr ⟨l, hl', hdeclared⟩
  | pinned _ declared _ pins =>
    rw [declared] at hdeclared
    cases hdeclared
    cases pins
    exact absurd rfl hwritten

theorem consistent_of_pins (h : List.Forall₂ (PinsLine t) lines lines') (hc : Consistent memorySize lines)
    (hlowest : LowestFree memorySize lines t) : Consistent memorySize lines' where
  labels := by
    rw [labels_eq, code_eq_of_pins h, ← labels_eq]
    exact hc.labels
  names := by
    rw [names_eq_of_pins h]
    exact hc.names
  unreserved d' hd' := by
    rcases mem_aliases_of_pins h hd' with hd | ⟨d, hd, hpins⟩
    · exact hc.unreserved d' hd
    · have hold := hc.unreserved d (List.mem_filter.mp hd).1
      cases hpins
      exact hold
  addresses d' hd' w hw := by
    rcases mem_aliases_of_pins h hd' with hd | ⟨d, hd, hpins⟩
    · exact hc.addresses d' hd w hw
    · cases hpins with
      | mk found address =>
        cases hw
        have hlt := hlowest.inside _ hd _ found
        rw [Word.Inside, address]
        omega

/-! ### Unclaimed addresses -/

theorem LowestFree.eq_of_address (h : LowestFree memorySize lines t) {d d' : AliasDeclaration} {a a' : Alias}
    (hd : d ∈ unplaced lines) (hd' : d' ∈ unplaced lines) (ha : t.alias? d.name = some a)
    (ha' : t.alias? d'.name = some a') (haddress : a.address = a'.address) : d = d' := by
  obtain ⟨i, hi⟩ := List.mem_iff_getElem?.mp hd
  obtain ⟨j, hj⟩ := List.mem_iff_getElem?.mp hd'
  rcases Nat.lt_trichotomy i j with hij | rfl | hij
  · have := h.increasing i j d d' a a' hij hi hj ha ha'
    omega
  · exact Option.some.inj (hi.symm.trans hj)
  · have := h.increasing j i d' d a' a hij hj hi ha' ha
    omega

theorem unclaimed_eq_of_pins (h : List.Forall₂ (PinsLine t) lines lines') :
    unclaimed memorySize lines' = (unclaimed memorySize lines).filter fun address => ¬Claimed lines' address := by
  rw [unclaimed, unclaimed, List.filter_filter]
  refine List.filter_congr fun address _ => ?_
  have hmore : Claimed lines address → Claimed lines' address := by
    rintro (hspecial | ⟨d, hd, haddress⟩)
    · exact .inl hspecial
    · refine .inr ⟨d, mem_aliases_of_written h hd ?_, haddress⟩
      intro hnone
      rw [hnone] at haddress
      cases haddress
  by_cases hclaimed : Claimed lines' address
  · simp [hclaimed]
  · simp [hclaimed, mt hmore hclaimed]

/-- An alias that still leaves its address open has one that is claimed neither before nor after. -/
theorem not_claimed_of_pins (h : List.Forall₂ (PinsLine t) lines lines') (hc : Consistent memorySize lines)
    (hlowest : LowestFree memorySize lines t) {d : AliasDeclaration} {a : Alias} (hd : d ∈ unplaced lines')
    (ha : t.alias? d.name = some a) : ¬Claimed lines' a.address := by
  obtain ⟨hmem', hnone⟩ := List.mem_filter.mp hd
  have hopen : d.address = none := by simpa using hnone
  have hmem : d ∈ unplaced lines := by
    rcases mem_aliases_of_pins h hmem' with hd | ⟨_, -, hpins⟩
    · exact List.mem_filter.mpr ⟨hd, hnone⟩
    · cases hpins
      cases hopen
  have hfree := hlowest.free d hmem a ha
  rintro (hspecial | ⟨d', hd', haddress⟩)
  · exact hfree (.inl hspecial)
  · rcases mem_aliases_of_pins h hd' with hold | ⟨d₀, hd₀, hpins⟩
    · exact hfree (.inr ⟨d', hold, haddress⟩)
    · cases hpins with
      | @mk name value a₀ w found address =>
        -- the address was written down for an alias that had the same one, so for the same alias
        have hsame : a₀.address = a.address := by
          have hclaimed : w.toInt = a.address := Option.some.inj haddress
          omega
        obtain rfl := hlowest.eq_of_address hd₀ hmem found ha hsame
        have hnames := (consistent_of_pins h hc hlowest).names
        have := List.inj_on_of_nodup_map hnames hmem' hd' rfl
        cases this

end Declarations

/-! ### The passes over pinned lines -/

section Passes
variable {target : Target} {memorySize : Nat} {t t' : SymbolTable} {lines lines' : List SourceLine}

theorem SymbolTable.labelsFrom_of_pins (h : List.Forall₂ (PinsLine t) lines lines') (next : Nat) :
    labelsFrom next lines' = labelsFrom next lines := by
  induction h generalizing next with
  | nil => rfl
  | cons hl _ ih =>
    rw [labelsFrom, labelsFrom, label?_eq, label?_eq, hasCommand_eq, hasCommand_eq, hl.code?_eq, hl.number_eq, ih]

/-- If from the free addresses those are left out that are written down now, each alias gets its address again. -/
theorem SymbolTable.allocate_of_pins (h : List.Forall₂ (PinsLine t) lines lines') {keep : Nat → Bool}
    (hwritten : ∀ d ∈ SourceLine.aliases lines', ∀ w, d.address = some w → keep w.toInt.toNat = false)
    (hopen : ∀ d ∈ unplaced lines', ∀ a, t.alias? d.name = some a → keep a.address = true) {free : List Nat}
    {out : List Alias} (hout : allocate free lines = .ok out) (hfound : ∀ b ∈ out, t.alias? b.name = some b) :
    allocate (free.filter keep) lines' = .ok out := by
  induction h generalizing free out with
  | nil => exact hout
  | @cons l l' lines lines' hl _ ih =>
    have hsub : (SourceLine.aliases lines').Sublist (SourceLine.aliases (l' :: lines')) :=
      (List.sublist_cons_self l' lines').filterMap _
    replace ih {free : List Nat} {out : List Alias} := @ih (fun d hd => hwritten d (hsub.mem hd))
      (fun d hd => hopen d ((hsub.filter _).mem hd)) free out
    -- whichever alias comes first, the ones behind it get their addresses again
    have hcons {free : List Nat} {b : Alias} (h : (allocate free lines).map (b :: ·) = .ok out) :
        t.alias? b.name = some b ∧ (allocate (free.filter keep) lines').map (b :: ·) = .ok out := by
      obtain ⟨tail, htail, rfl⟩ := map_cons_eq_ok_iff.mp h
      refine ⟨hfound b List.mem_cons_self, map_cons_eq_ok_iff.mpr ⟨tail, ih htail ?_, rfl⟩⟩
      exact fun c hc => hfound c (List.mem_cons_of_mem b hc)
    rw [allocate] at hout ⊢
    cases hl with
    | same =>
      cases hd : l.alias? with
      | none =>
        rw [hd] at hout
        exact ih hout hfound
      | some d =>
        rw [hd] at hout
        cases ha : d.address with
        | some w =>
          simp only [ha] at hout ⊢
          exact (hcons hout).2
        | none =>
          simp only [ha] at hout ⊢
          cases free with
          | nil => cases hout
          | cons a free =>
            have hmem : d ∈ unplaced (l :: lines') :=
              List.mem_filter.mpr ⟨mem_aliases.mpr ⟨l, List.mem_cons_self, hd⟩, by simp [ha]⟩
            rw [List.filter_cons_of_pos (hopen d hmem _ (hcons hout).1)]
            exact (hcons hout).2
    | pinned number declared written pins =>
      rw [declared] at hout
      rw [written]
      cases pins with
      | @mk name value a w found address =>
        cases free with
        | nil => cases hout
        | cons first free =>
          -- the alias took the first free address, which is the one written down for it
          obtain ⟨hfirst, hrest⟩ := hcons hout
          rw [found] at hfirst
          cases hfirst
          have hsame : w.toInt.toNat = first := by
            rw [address]
            exact Int.toNat_natCast first
          have hkeep := hwritten _ (mem_aliases.mpr ⟨l', List.mem_cons_self, written⟩) w rfl
          rw [hsame] at hkeep
          rw [List.filter_cons_of_neg (by simp [hkeep])]
          dsimp only
          rw [hsame, number]
          exact hrest

theorem SymbolTable.ofLines_of_pins (h : List.Forall₂ (PinsLine t) lines lines') (hc : Consistent memorySize lines)
    (ht : ofLines memorySize lines = .ok t) :
    Consistent memorySize lines' ∧ ofLines memorySize lines' = .ok t := by
  obtain ⟨hroom, htabulates⟩ := (ofLines_eq_ok_iff hc).mp ht
  have hlowest := htabulates.lowestFree hc hroom
  have hc' := consistent_of_pins h hc hlowest
  obtain ⟨declared, haliases, hdeclared⟩ := htabulates.aliases
  have hallocated : allocate (unclaimed memorySize lines') lines' = .ok declared := by
    rw [unclaimed_eq_of_pins h]
    refine allocate_of_pins h ?_ ?_ (allocate_eq_ok_iff.mpr ⟨hroom, hdeclared⟩) ?_
    · intro d hd w hw
      have hclaimed : Claimed lines' w.toInt.toNat := by
        refine .inr ⟨d, hd, ?_⟩
        rw [hw, Option.map_some, Int.toNat_of_nonneg (hc'.addresses d hd w hw).1]
      simpa using hclaimed
    · intro d hd a ha
      simpa using not_claimed_of_pins h hc hlowest hd ha
    · intro b hb
      exact htabulates.alias?_of_mem hc (by rw [haliases]; exact List.mem_append_right _ hb)
  obtain ⟨hroom', hdeclared'⟩ := allocate_eq_ok_iff.mp hallocated
  have hlabels := htabulates.labels.unique (placed_labelsFrom _ _) fun _ _ _ _ _ => IsLabel.unique
  refine ⟨hc', (ofLines_eq_ok_iff hc').mpr ⟨hroom', ?_, declared, haliases, hdeclared'⟩⟩
  rw [hlabels, initialCount_eq_of_pins h, ← labelsFrom_of_pins h]
  exact placed_labelsFrom _ _

theorem Target.instructionsFrom_of_pins (h : List.Forall₂ (PinsLine t) lines lines') (next : Nat) :
    target.instructionsFrom t' next lines' = target.instructionsFrom t' next lines := by
  induction h generalizing next with
  | nil => rfl
  | cons hl _ ih =>
    cases hl with
    | same => simp only [instructionsFrom, ih]
    | pinned _ declared written =>
      rw [instructionsFrom_of_none (code?_of_alias? declared), instructionsFrom_of_none (code?_of_alias? written), ih]

end Passes

/-! ### Pinned texts -/

/-- The text that declares the alias of a line with the address that the table has for it. -/
def SymbolTable.pin (t : SymbolTable) (text : String) : String :=
  match Line.declaration? text with
  | some d => { d with address := (t.alias? d.name).map fun a => Int64.ofNat a.address : AliasDeclaration }.render
  | none => text

/-- Some lines with the addresses of the table written down on the chosen ones. -/
def SymbolTable.pinAll (t : SymbolTable) (chosen : Nat → Bool) (texts : List String) : List String :=
  texts.mapIdx fun n text => if chosen n then t.pin text else text

section Texts
variable {t : SymbolTable} {memorySize : Nat} {texts : List String} {text : String} {d : AliasDeclaration}

theorem Line.declaration?_render (h : declaration? text = some d) (address : Option Word) :
    declaration? { d with address : AliasDeclaration }.render = some { d with address } := by
  obtain ⟨comment, hread⟩ := declaration?_eq_some_iff.mp h
  have hlegal : (Statement.alias { d with address }).Legal := by
    cases Statement.legal_of_read hread with
    | declares hword hname => exact .declares hword hname
  exact declaration?_eq_some_iff.mpr ⟨none, hlegal.read_render⟩

theorem SymbolTable.Tabulates.pinned_pinAll {t : SymbolTable} {lines : List SourceLine}
    (h : t.Tabulates memorySize lines) (hc : Consistent memorySize lines)
    (hroom : lines.countP needsAddress ≤ (unclaimed memorySize lines).length) (hr : Reads texts lines)
    (hlength : texts.length < 2 ^ 63) {chosen : Nat → Bool} (hchosen : ∀ n, chosen n = true → ∃ text d,
      texts[n]? = some text ∧ Line.declaration? text = some d ∧ d.address = none) :
    Pinned t chosen texts (t.pinAll chosen texts) where
  length := List.length_mapIdx
  pins n text text' hn htext htext' := by
    obtain ⟨_, ⟨name, _, value⟩, hsame, hdeclared, rfl⟩ := hchosen n hn
    cases htext.symm.trans hsame
    rw [pinAll, List.getElem?_mapIdx, htext, Option.map_some, hn, if_pos rfl, Option.some.injEq] at htext'
    have hmem : ⟨name, none, value⟩ ∈ SourceLine.unplaced lines := by
      refine List.mem_filter.mpr ⟨?_, rfl⟩
      rw [hr.aliases_eq]
      exact List.mem_filterMap.mpr ⟨text, List.mem_of_getElem? htext, hdeclared⟩
    obtain ⟨j, hj⟩ := List.mem_iff_getElem?.mp hmem
    obtain ⟨a, ha, -⟩ := h.exists_allocated hc hroom hj
    have haddress := h.toInt_address hc (hr.length_eq ▸ hlength) (List.mem_of_find?_eq_some ha)
    refine ⟨_, _, hdeclared, ?_, .mk ha haddress⟩
    rw [← htext', pin, hdeclared]
    dsimp only
    rw [Line.declaration?_render hdeclared, ha, Option.map_some]
  others n hn := by
    rw [pinAll, List.getElem?_mapIdx, hn]
    cases texts[n]? <;> rfl

end Texts

/-- A program does not change if on some lines that leave the address of an alias open the address that it got is written
    down. There are texts for these lines, however the lines are chosen, as long as addresses are words. -/
theorem Target.assemble_pinned {target : Target} {texts : List String} {p : Program}
    (h : target.assemble texts = .ok p) :
    (∀ chosen texts', Pinned p.symbols chosen texts texts' → target.assemble texts' = .ok p) ∧
      (texts.length < 2 ^ 63 → ∀ chosen : Nat → Bool, (∀ n, chosen n = true → ∃ text d, texts[n]? = some text ∧
        Line.declaration? text = some d ∧ d.address = none) →
        Pinned p.symbols chosen texts (p.symbols.pinAll chosen texts)) := by
  obtain ⟨lines, hread, hsymbols, commands, hcommands, hp⟩ := assemble_eq_ok_iff_passes.mp h
  obtain ⟨hreads, hc⟩ := readAll_eq_ok_iff.mp hread
  constructor
  · intro chosen texts' hpinned
    obtain ⟨lines', hreads'⟩ := exists_reads (hpinned.readable hreads)
    have hpins := hpinned.forall₂ hreads hreads'
    obtain ⟨hc', hsymbols'⟩ := SymbolTable.ofLines_of_pins hpins hc hsymbols
    refine assemble_eq_ok_iff_passes.mpr ⟨lines', readAll_eq_ok_iff.mpr ⟨hreads', hc'⟩, hsymbols', commands, ?_, hp⟩
    rw [instructionsFrom_of_pins hpins, hcommands]
  · intro hlength chosen hchosen
    obtain ⟨hroom, htabulates⟩ := (SymbolTable.ofLines_eq_ok_iff hc).mp hsymbols
    exact htabulates.pinned_pinAll hc hroom hreads hlength hchosen

/-- Two aliases of three leave their address open. -/
def halfOpen : List String := ["#alias a", "#alias b @2 =7", "#alias c =-5 ; gets address 3", "ADDD c"]

/-- With the address of the last one written down, it is the same program. -/
theorem Target.assemble_pinned_halfOpen : ∃ p, Target.assemble {} halfOpen = .ok p ∧
    p.symbols.pinAll (· == 2) halfOpen = ["#alias a", "#alias b @2 =7", "#alias c @3 =-5", "ADDD c"] ∧
    Target.assemble {} ["#alias a", "#alias b @2 =7", "#alias c @3 =-5", "ADDD c"] = .ok p := by
  have hpinned : (Target.assemble {} halfOpen).toOption.map (·.symbols.pinAll (· == 2) halfOpen) =
      some ["#alias a", "#alias b @2 =7", "#alias c @3 =-5", "ADDD c"] := by
    decide +kernel
  obtain ⟨p, hp, hsame⟩ := exists_eq_ok_of_map_toOption hpinned
  obtain ⟨hassemble, htexts⟩ := Target.assemble_pinned hp
  refine ⟨p, hp, hsame, ?_⟩
  rw [← hsame]
  refine hassemble _ _ (htexts (by decide) _ ?_)
  intro n hn
  obtain rfl : n = 2 := by simpa using hn
  exact ⟨_, ⟨"c", none, some (-5)⟩, rfl, by decide +kernel, rfl⟩

end Mac1
