import Mac1.Proofs.Assembly.Symbols
import Mac1.Proofs.Text.Case

/-! What commands and parameters mean, said of the lines of a program and without a symbol table. Resolving a
    parameter against the table of the lines finds the word that the parameter denotes, and fails if it
    denotes none; the same holds of the effect of a command. -/

namespace Mac1

/-- The kind stands for a place in memory. -/
def ParameterKind.IsPlace (k : ParameterKind) : Prop := k = .stackOffset ∨ k = .address

/-- A text names an operation of the set: its uppercase form is the mnemonic. -/
def InstructionSet.Names (s : InstructionSet) (name : String) (op : Opcode) : Prop :=
  op ∈ s.opcodes ∧ op.mnemonic = Text.upper name

namespace SourceLine

/-- A name stands for an address: that of a special address, or of an alias declared on some line. -/
def NamesAddress (memorySize : Nat) (lines : List SourceLine) (name : String) (address : Nat) : Prop :=
  (∃ s ∈ SpecialAddress.all, s.name = name ∧ s.address = address) ∨
    ∃ n l d, lines[n]? = some l ∧ l.alias? = some d ∧ d.name = name ∧
      Assigned (unclaimed memorySize lines) lines n d address

/-- A parameter of a kind denotes a word. A constant is a decimal that fits in a word. A place is a decimal, or
    else the name of an address, and lies inside memory. A label is declared on some line, before or
    after, and denotes the index of the first instruction from that line on. -/
inductive Denotes (memorySize : Nat) (lines : List SourceLine) : ParameterKind → String → Word → Prop where
  | constant {token : String} {x : Word} (h : Word.ofDecimal? token = some x) :
    Denotes memorySize lines .constant token x
  | literal {kind : ParameterKind} {token : String} {x : Word} (hk : kind.IsPlace)
    (h : Word.ofDecimal? token = some x) (inside : Word.Inside memorySize x) : Denotes memorySize lines kind token x
  | name {kind : ParameterKind} {token : String} {address : Nat} (hk : kind.IsPlace)
    (h : Word.ofDecimal? token = none) (ha : NamesAddress memorySize lines token address)
    (inside : Word.Inside memorySize (Int64.ofNat address)) :
    Denotes memorySize lines kind token (Int64.ofNat address)
  | label {token : String} {n : Nat} {l : SourceLine} (hl : lines[n]? = some l) (h : l.label? = some token) :
    Denotes memorySize lines .label token
      (Int64.ofNat (instructionIndex (SymbolTable.initialCount lines) lines n))

/-- A command with its parameter means an effect, under a canonical mnemonic. `END` halts and takes no parameter;
    an operation takes a parameter exactly if its kind asks for one, since none denotes anything for the kind
    `absent`. -/
inductive Means (target : Target) (lines : List SourceLine) : String → Option String → Effect → String → Prop where
  | halt {command : String} (h : Text.eqIgnoreAsciiCase command haltMnemonic = true) :
    Means target lines command none .halt haltMnemonic
  | plain {command : String} {op : Opcode} (h : target.instructionSet.Names command op)
    (hk : op.parameterKind = .absent) : Means target lines command none (.apply op 0) op.mnemonic
  | applied {command token : String} {op : Opcode} {x : Word} (h : target.instructionSet.Names command op)
    (hx : Denotes target.memorySize lines op.parameterKind token x) :
    Means target lines command (some token) (.apply op x) op.mnemonic

section Denotes
variable {memorySize : Nat} {lines : List SourceLine} {kind : ParameterKind} {token : String} {x : Word}

theorem Denotes.ne_absent (h : Denotes memorySize lines kind token x) : kind ≠ .absent := by
  cases h with
  | constant => simp
  | literal hk => rcases hk with rfl | rfl <;> simp
  | name hk => rcases hk with rfl | rfl <;> simp
  | label => simp

theorem denotes_constant_iff : Denotes memorySize lines .constant token x ↔ Word.ofDecimal? token = some x := by
  constructor
  · intro h
    cases h with
    | constant hx => exact hx
    | literal hk => rcases hk with hk | hk <;> cases hk
    | name hk => rcases hk with hk | hk <;> cases hk
  · exact .constant

theorem denotes_label_iff : Denotes memorySize lines .label token x ↔ ∃ n l, lines[n]? = some l ∧
    l.label? = some token ∧ x = Int64.ofNat (instructionIndex (SymbolTable.initialCount lines) lines n) := by
  constructor
  · intro h
    cases h with
    | label hl hlabel => exact ⟨_, _, hl, hlabel, rfl⟩
    | literal hk => rcases hk with hk | hk <;> cases hk
    | name hk => rcases hk with hk | hk <;> cases hk
  · rintro ⟨n, l, hl, hlabel, rfl⟩
    exact .label hl hlabel

theorem denotes_place_iff (hk : kind.IsPlace) : Denotes memorySize lines kind token x ↔
    (Word.ofDecimal? token = some x ∨ Word.ofDecimal? token = none ∧ ∃ address,
      NamesAddress memorySize lines token address ∧ Int64.ofNat address = x) ∧ Word.Inside memorySize x := by
  constructor
  · intro h
    cases h with
    | constant => rcases hk with hk | hk <;> cases hk
    | literal _ hx inside => exact ⟨.inl hx, inside⟩
    | name _ hnone ha inside => exact ⟨.inr ⟨hnone, _, ha, rfl⟩, inside⟩
    | label => rcases hk with hk | hk <;> cases hk
  · rintro ⟨hx | ⟨hnone, address, ha, rfl⟩, inside⟩
    · exact .literal hk hx inside
    · exact .name hk hnone ha inside

end Denotes

theorem Means.ne_store {target : Target} {lines : List SourceLine} {command mnemonic : String}
    {parameter : Option String} {effect : Effect} (h : Means target lines command parameter effect mnemonic)
    (address : Nat) (value : Word) : effect ≠ .store address value := by
  cases h <;> simp

end SourceLine

open SourceLine

/-! ### Parameters -/

section Parameters
variable {memorySize : Nat} {lines : List SourceLine} {t : SymbolTable} {token : String} {x : Word}

theorem SymbolTable.Tabulates.exists_alias?_iff (h : t.Tabulates memorySize lines) (hc : Consistent memorySize lines)
    {address : Nat} :
    (t.alias? token).map (·.address) = some address ↔ NamesAddress memorySize lines token address := by
  rw [Option.map_eq_some_iff]
  constructor
  · rintro ⟨a, ha, rfl⟩
    rcases (h.alias?_eq_some_iff hc).mp ha with ⟨s, hs, hname, rfl⟩ | ⟨n, l, d, address, hl, hd, hname, haddress, rfl⟩
    · exact .inl ⟨s, hs, hname, rfl⟩
    · exact .inr ⟨n, l, d, hl, hd, hname, haddress⟩
  · rintro (⟨s, hs, hname, rfl⟩ | ⟨n, l, d, hl, hd, hname, haddress⟩)
    · exact ⟨_, (h.alias?_eq_some_iff hc).mpr (.inl ⟨s, hs, hname, rfl⟩), rfl⟩
    · exact ⟨_, (h.alias?_eq_some_iff hc).mpr (.inr ⟨n, l, d, address, hl, hd, hname, haddress, rfl⟩), rfl⟩

/-- Offsets and addresses are resolved alike: what is neither a decimal nor an alias is refused for how it starts. -/
theorem SymbolTable.resolve_place_of_none {kind : ParameterKind} (hk : kind.IsPlace)
    (h : (Word.ofDecimal? token).or ((t.alias? token).map (Int64.ofNat ·.address)) = none) :
    t.resolve memorySize kind token =
      .error (if startsLikeDecimal token then .invalid token kind else .unresolved token) := by
  rcases hk with rfl | rfl <;> unfold resolve <;> simp only [h]

theorem SymbolTable.resolve_place_of_inside {kind : ParameterKind} (hk : kind.IsPlace)
    (h : (Word.ofDecimal? token).or ((t.alias? token).map (Int64.ofNat ·.address)) = some x)
    (inside : Word.Inside memorySize x) : t.resolve memorySize kind token = .ok x := by
  obtain ⟨i, hi⟩ := Word.exists_index?_iff.mpr inside
  rcases hk with rfl | rfl <;> unfold resolve <;> simp only [h, hi]

theorem SymbolTable.resolve_place_of_outside {kind : ParameterKind} (hk : kind.IsPlace)
    (h : (Word.ofDecimal? token).or ((t.alias? token).map (Int64.ofNat ·.address)) = some x)
    (outside : ¬Word.Inside memorySize x) :
    t.resolve memorySize kind token = .error (.outOfRange x kind memorySize) := by
  have hi : Word.index? memorySize x = none := by
    rw [Option.eq_none_iff_forall_ne_some]
    intro i hi
    exact outside (Word.exists_index?_iff.mp ⟨i, hi⟩)
  rcases hk with rfl | rfl <;> unfold resolve <;> simp only [h, hi]

/-- The word that a parameter for a place stands for, before it is checked: a decimal first, else an alias. -/
theorem SymbolTable.resolve_place_eq_ok_iff {kind : ParameterKind} (hk : kind.IsPlace) :
    t.resolve memorySize kind token = .ok x ↔
      (Word.ofDecimal? token).or ((t.alias? token).map (Int64.ofNat ·.address)) = some x ∧
        Word.Inside memorySize x := by
  constructor
  · intro h
    cases hvalue : (Word.ofDecimal? token).or ((t.alias? token).map (Int64.ofNat ·.address)) with
    | none =>
      rw [resolve_place_of_none hk hvalue] at h
      cases h
    | some w =>
      by_cases inside : Word.Inside memorySize w
      · rw [resolve_place_of_inside hk hvalue inside] at h
        cases h
        exact ⟨rfl, inside⟩
      · rw [resolve_place_of_outside hk hvalue inside] at h
        cases h
  · rintro ⟨hvalue, inside⟩
    exact resolve_place_of_inside hk hvalue inside

/-- A place is a decimal, or else the address of an alias that the lines declare. -/
theorem SymbolTable.Tabulates.place_eq_some_iff (h : t.Tabulates memorySize lines) (hc : Consistent memorySize lines) :
    (Word.ofDecimal? token).or ((t.alias? token).map (Int64.ofNat ·.address)) = some x ↔
      Word.ofDecimal? token = some x ∨ Word.ofDecimal? token = none ∧ ∃ address,
        NamesAddress memorySize lines token address ∧ Int64.ofNat address = x := by
  rw [Option.or_eq_some_iff]
  refine or_congr_right (and_congr_right fun _ => ?_)
  simp only [← h.exists_alias?_iff hc, Option.map_eq_some_iff]
  constructor
  · rintro ⟨a, ha, hx⟩
    exact ⟨a.address, ⟨a, ha, rfl⟩, hx⟩
  · rintro ⟨address, ⟨a, ha, rfl⟩, hx⟩
    exact ⟨a, ha, hx⟩

/-- Resolving a parameter finds exactly what it denotes. -/
theorem SymbolTable.Tabulates.resolve_eq_ok_iff (h : t.Tabulates memorySize lines) (hc : Consistent memorySize lines)
    {kind : ParameterKind} (hk : kind ≠ .absent) :
    t.resolve memorySize kind token = .ok x ↔ Denotes memorySize lines kind token x := by
  have place : ∀ kind : ParameterKind, kind.IsPlace →
      (t.resolve memorySize kind token = .ok x ↔ Denotes memorySize lines kind token x) := by
    intro kind hplace
    rw [resolve_place_eq_ok_iff hplace, h.place_eq_some_iff hc, denotes_place_iff hplace]
  cases kind with
  | absent => exact absurd rfl hk
  | constant =>
    rw [denotes_constant_iff, resolve]
    cases Word.ofDecimal? token <;> simp
  | stackOffset => exact place _ (.inl rfl)
  | address => exact place _ (.inr rfl)
  | label =>
    rw [denotes_label_iff, resolve]
    constructor
    · intro hresolve
      split at hresolve
      · next b hb =>
        obtain ⟨n, l, hl, hlabel, rfl⟩ := (h.label?_eq_some_iff hc).mp hb
        cases hresolve
        exact ⟨n, l, hl, hlabel, rfl⟩
      · cases hresolve
    · rintro ⟨n, l, hl, hlabel, rfl⟩
      rw [(h.label?_eq_some_iff hc).mpr ⟨n, l, hl, hlabel, rfl⟩]

end Parameters

/-! ### Commands -/

/-- No operation is written like the command that halts. -/
theorem InstructionSet.Names.not_halt {s : InstructionSet} {command : String} {op : Opcode} (h : s.Names command op) :
    ¬Text.eqIgnoreAsciiCase command haltMnemonic = true := by
  intro hhalt
  have hupper : op.mnemonic = Text.upper haltMnemonic := h.2.trans (Text.upper_eq_of_eqIgnoreAsciiCase hhalt)
  have hend : ∀ op : Opcode, op.mnemonic ≠ Text.upper haltMnemonic := by
    intro op
    cases op <;> decide
  exact hend op hupper

theorem InstructionSet.find_eq_ok_iff {s : InstructionSet} {name : String} {hasParameter : Bool} {op : Opcode} :
    s.find name hasParameter = .ok op ↔ s.Names name op ∧ op.parameterKind.isRequired = hasParameter := by
  rw [Names, ← get?_eq_some_iff, find]
  cases s.get? name with
  | none => simp
  | some a =>
    have hsame : (a = op ∧ op.parameterKind.isRequired = hasParameter) ↔
        a = op ∧ a.parameterKind.isRequired = hasParameter := and_congr_right fun h => by rw [h]
    rw [Option.some.injEq, hsame]
    cases hrequired : a.parameterKind.isRequired <;> cases hasParameter <;> simp [hrequired]

theorem Target.effect_eq_ok_iff {target : Target} {lines : List SourceLine} {t : SymbolTable}
    (h : t.Tabulates target.memorySize lines) (hc : Consistent target.memorySize lines) {command mnemonic : String}
    {parameter : Option String} {effect : Effect} :
    target.effect t command parameter = .ok (effect, mnemonic) ↔
      Means target lines command parameter effect mnemonic := by
  unfold Target.effect
  constructor
  · intro he
    split at he
    · next hhalt =>
      split at he <;> cases he
      exact .halt hhalt
    · split at he
      · cases he
      · next op hfind =>
        obtain ⟨hnames, hrequired⟩ := InstructionSet.find_eq_ok_iff.mp hfind
        cases parameter with
        | none =>
          cases he
          exact .plain hnames (by simpa [ParameterKind.isRequired] using hrequired)
        | some token =>
          have hk : op.parameterKind ≠ .absent := by simpa [ParameterKind.isRequired] using hrequired
          dsimp only at he
          split at he <;> cases he
          next hresolve => exact .applied hnames ((h.resolve_eq_ok_iff hc hk).mp hresolve)
  · intro hmeans
    cases hmeans with
    | halt hhalt => rw [if_pos hhalt]
    | plain hnames hk =>
      have hrequired := (bne_eq_false_iff_eq (b := ParameterKind.absent)).mpr hk
      rw [if_neg hnames.not_halt]
      simp only [Option.isSome_none, InstructionSet.find_eq_ok_iff.mpr ⟨hnames, hrequired⟩]
    | applied hnames hx =>
      have hrequired := bne_iff_ne.mpr hx.ne_absent
      rw [if_neg hnames.not_halt]
      simp only [Option.isSome_some, InstructionSet.find_eq_ok_iff.mpr ⟨hnames, hrequired⟩,
        (h.resolve_eq_ok_iff hc hx.ne_absent).mpr hx]

end Mac1
