import Mac1.Assembly.Target
import Mac1.Proofs.Assembly.Allocation

/-! The symbol table of a program, compared with what its lines declare. A label stands for the number of
    initial values plus the number of commands before it; an alias lies where `Assigned` says. Names that are
    declared once are found under their declaration and under no other. -/

namespace Mac1

namespace SourceLine

/-- The line declares a label. -/
def declaresLabel (l : SourceLine) : Bool := l.label?.isSome

/-- The index of the instruction that a label at position `n` stands for, if `first` is the index of the first
    instruction of the lines. -/
def instructionIndex (first : Nat) (lines : List SourceLine) (n : Nat) : Nat :=
  first + (lines.take n).countP hasCommand

/-- The label is that of the declaration on the line at position `n`. -/
def IsLabel (first : Nat) (lines : List SourceLine) (n : Nat) (l : SourceLine) (b : Label) : Prop :=
  ∃ name, l.label? = some name ∧ b = ⟨name, instructionIndex first lines n, l.number⟩

theorem IsLabel.unique {first n : Nat} {lines : List SourceLine} {l : SourceLine} {b b' : Label}
    (h : IsLabel first lines n l b) (h' : IsLabel first lines n l b') : b = b' := by
  obtain ⟨name, hname, rfl⟩ := h
  obtain ⟨name', hname', rfl⟩ := h'
  rw [Option.some.inj (hname.symm.trans hname')]

theorem instructionIndex_cons (first n : Nat) (l : SourceLine) (lines : List SourceLine) :
    instructionIndex first (l :: lines) (n + 1) =
      instructionIndex (if l.hasCommand then first + 1 else first) lines n := by
  unfold instructionIndex
  rw [List.take_succ_cons]
  by_cases h : l.hasCommand = true
  · rw [List.countP_cons_of_pos h, if_pos h]
    omega
  · rw [List.countP_cons_of_neg h, if_neg h]

end SourceLine

open SourceLine

namespace SymbolTable

/-- The pass over the lines gives every label the index of the next instruction. -/
theorem placed_labelsFrom (first : Nat) (lines : List SourceLine) :
    Placed declaresLabel (IsLabel first lines) lines (labelsFrom first lines) := by
  induction lines generalizing first with
  | nil => exact placed_nil.mpr rfl
  | cons l lines ih =>
    have hrest := ih (if l.hasCommand then first + 1 else first)
    have hshift : (fun n => IsLabel first (l :: lines) (n + 1)) =
        IsLabel (if l.hasCommand then first + 1 else first) lines := by
      funext n k b
      simp only [IsLabel, instructionIndex_cons]
    rw [labelsFrom]
    cases hlabel : l.label? with
    | none => exact (placed_cons_of_neg (by simp [declaresLabel, hlabel])).mpr (hshift ▸ hrest)
    | some name =>
      refine (placed_cons_of_pos (by simp [declaresLabel, hlabel])).mpr ⟨_, _, rfl, ?_, hshift ▸ hrest⟩
      exact ⟨name, hlabel, rfl⟩

/-- The table holds the labels and aliases that some lines declare, and the special addresses. -/
structure Tabulates (memorySize : Nat) (lines : List SourceLine) (t : SymbolTable) : Prop where
  labels : Placed declaresLabel (IsLabel (initialCount lines) lines) lines t.labels
  aliases : ∃ declared, t.aliases = SpecialAddress.all.map Alias.ofSpecial ++ declared ∧
    Placed declaresAlias (IsAlias (unclaimed memorySize lines) lines) lines declared

section Table
variable {memorySize : Nat} {lines : List SourceLine} {t t' : SymbolTable}

theorem Tabulates.unique (h : Tabulates memorySize lines t) (h' : Tabulates memorySize lines t') : t = t' := by
  obtain ⟨declared, haliases, hdeclared⟩ := h.aliases
  obtain ⟨declared', haliases', hdeclared'⟩ := h'.aliases
  have hlabels := h.labels.unique h'.labels fun _ _ _ _ _ => IsLabel.unique
  have hsame := hdeclared.unique hdeclared' fun _ _ _ _ _ => IsAlias.unique
  cases t
  cases t'
  simp_all only

theorem exists_tabulates (h : lines.countP needsAddress ≤ (unclaimed memorySize lines).length) :
    ∃ t, Tabulates memorySize lines t := by
  obtain ⟨declared, hdeclared⟩ : ∃ declared,
      Placed declaresAlias (IsAlias (unclaimed memorySize lines) lines) lines declared := by
    refine Placed.exists_of_forall fun n l hl hdeclares => ?_
    obtain ⟨d, hd⟩ := Option.isSome_iff_exists.mp hdeclares
    suffices haddress : ∃ address, Assigned (unclaimed memorySize lines) lines n d address by
      obtain ⟨address, haddress⟩ := haddress
      exact ⟨_, d, address, hd, haddress, rfl⟩
    unfold Assigned
    cases ha : d.address with
    | some a => exact ⟨a.toInt.toNat, rfl⟩
    | none =>
      have hneeds : l.needsAddress = true := by simp [needsAddress, hd, ha]
      have hlt := Nat.lt_of_lt_of_le (countP_take_lt_countP hl hneeds) h
      exact ⟨_, List.getElem?_eq_getElem hlt⟩
  exact ⟨⟨labelsFrom (initialCount lines) lines, SpecialAddress.all.map Alias.ofSpecial ++ declared⟩,
    placed_labelsFrom _ _, declared, rfl, hdeclared⟩

/-- The lines have a symbol table exactly if every alias without an address gets one. -/
theorem ofLines_eq_ok_iff (hc : Consistent memorySize lines) : ofLines memorySize lines = .ok t ↔
    lines.countP needsAddress ≤ (unclaimed memorySize lines).length ∧ Tabulates memorySize lines t := by
  have hplaced : ∀ declared,
      allocate ((unclaimed memorySize lines).take (lines.countP needsAddress)) lines = .ok declared ↔
      lines.countP needsAddress ≤ (unclaimed memorySize lines).length ∧
        Placed declaresAlias (IsAlias (unclaimed memorySize lines) lines) lines declared := fun declared => by
    rw [allocate_take _ (Nat.le_refl (lines.countP needsAddress)), allocate_eq_ok_iff]
  have hofLines : ofLines memorySize lines = (allocate ((unclaimed memorySize lines).take (lines.countP needsAddress))
      lines).map fun declared => ⟨labelsFrom (initialCount lines) lines,
        SpecialAddress.all.map Alias.ofSpecial ++ declared⟩ := by
    rw [← freeAddresses_takenAddresses hc]
    rfl
  rw [hofLines]
  constructor
  · intro h
    cases ha : allocate ((unclaimed memorySize lines).take (lines.countP needsAddress)) lines with
    | error e => rw [ha] at h; cases h
    | ok declared =>
      rw [ha] at h
      cases h
      obtain ⟨hroom, hdeclared⟩ := (hplaced declared).mp ha
      exact ⟨hroom, placed_labelsFrom _ _, declared, rfl, hdeclared⟩
  · rintro ⟨hroom, ht⟩
    obtain ⟨declared, haliases, hdeclared⟩ := ht.aliases
    rw [(hplaced declared).mpr ⟨hroom, hdeclared⟩]
    exact congrArg Except.ok (Tabulates.unique ⟨placed_labelsFrom _ _, declared, rfl, hdeclared⟩ ht)

end Table

/-! ### Looking names up -/

section Lookup
variable {memorySize : Nat} {lines : List SourceLine} {t : SymbolTable}

/-- Where no two items share a key, looking up a key finds the item that has it. -/
theorem find?_key_eq_some_iff {α : Type} {key : α → String} {items : List α} (h : (items.map key).Nodup) {k : String}
    {a : α} : items.find? (key · == k) = some a ↔ a ∈ items ∧ key a = k := by
  induction items with
  | nil => simp
  | cons b items ih =>
    rw [List.map_cons, List.nodup_cons] at h
    by_cases hb : key b = k
    · rw [List.find?_cons_of_pos (by simpa using hb), Option.some.injEq, List.mem_cons]
      constructor
      · rintro rfl
        exact ⟨.inl rfl, hb⟩
      · rintro ⟨rfl | ha, hk⟩
        · rfl
        · exact absurd (List.mem_map.mpr ⟨a, ha, hk.trans hb.symm⟩) h.1
    · rw [List.find?_cons_of_neg (by simpa using hb), ih h.2, List.mem_cons]
      constructor
      · rintro ⟨ha, hk⟩
        exact ⟨.inr ha, hk⟩
      · rintro ⟨rfl | ha, hk⟩
        · exact absurd hk hb
        · exact ⟨ha, hk⟩

theorem Tabulates.labels_names (h : Tabulates memorySize lines t) :
    t.labels.map (·.name) = SourceLine.labels lines :=
  h.labels.map_eq_filterMap (fun _ => rfl) fun n l b _ ⟨name, hname, hb⟩ => by rw [hname, hb]

/-- No two aliases of a table share a name, special addresses included. -/
theorem Tabulates.nodup_aliases (h : Tabulates memorySize lines t) (hc : Consistent memorySize lines) :
    (t.aliases.map (·.name)).Nodup := by
  obtain ⟨declared, haliases, hdeclared⟩ := h.aliases
  have hnames : declared.map (·.name) = (SourceLine.aliases lines).map (·.name) := by
    rw [SourceLine.aliases, List.map_filterMap]
    exact map_of_placed_isAlias (fun name _ _ => name) hdeclared
  rw [haliases, List.map_append, hnames, List.nodup_append]
  refine ⟨by decide, hc.names, fun x hx y hy hxy => ?_⟩
  obtain ⟨a, ha, rfl⟩ := List.mem_map.mp hx
  obtain ⟨s, hs, rfl⟩ := List.mem_map.mp ha
  obtain ⟨d, hd, rfl⟩ := List.mem_map.mp hy
  exact hc.unreserved d hd s hs hxy.symm

theorem Tabulates.label?_eq_some_iff (h : Tabulates memorySize lines t) (hc : Consistent memorySize lines)
    {name : String} {b : Label} : t.label? name = some b ↔
      ∃ n l, lines[n]? = some l ∧ l.label? = some name ∧
        b = ⟨name, instructionIndex (initialCount lines) lines n, l.number⟩ := by
  unfold label?
  rw [find?_key_eq_some_iff (h.labels_names ▸ hc.labels), h.labels.mem_iff]
  constructor
  · rintro ⟨⟨n, l, hl, -, -, name, hname, rfl⟩, rfl⟩
    exact ⟨n, l, hl, hname, rfl⟩
  · rintro ⟨n, l, hl, hname, rfl⟩
    have hdeclares : l.declaresLabel = true := by simp [declaresLabel, hname]
    have hb : IsLabel (initialCount lines) lines n l ⟨name, instructionIndex (initialCount lines) lines n, l.number⟩ :=
      ⟨name, hname, rfl⟩
    obtain ⟨b, hb', hlabel⟩ := h.labels.2 n l hl hdeclares
    exact ⟨⟨n, l, hl, hdeclares, hb.unique hlabel ▸ hb', hb⟩, rfl⟩

theorem Tabulates.alias?_eq_some_iff (h : Tabulates memorySize lines t) (hc : Consistent memorySize lines)
    {name : String} {a : Alias} : t.alias? name = some a ↔
      (∃ s ∈ SpecialAddress.all, s.name = name ∧ a = Alias.ofSpecial s) ∨
        ∃ n l d address, lines[n]? = some l ∧ l.alias? = some d ∧ d.name = name ∧
          Assigned (unclaimed memorySize lines) lines n d address ∧
          a = ⟨name, address, d.value, some l.number⟩ := by
  obtain ⟨declared, haliases, hdeclared⟩ := h.aliases
  unfold alias?
  rw [find?_key_eq_some_iff (h.nodup_aliases hc), haliases, List.mem_append, or_and_right]
  refine or_congr ?_ ?_
  · simp only [List.mem_map]
    constructor
    · rintro ⟨⟨s, hs, rfl⟩, rfl⟩
      exact ⟨s, hs, rfl, rfl⟩
    · rintro ⟨s, hs, rfl, rfl⟩
      exact ⟨⟨s, hs, rfl⟩, rfl⟩
  · rw [hdeclared.mem_iff]
    constructor
    · rintro ⟨⟨n, l, hl, -, -, d, address, hd, haddress, rfl⟩, rfl⟩
      exact ⟨n, l, d, address, hl, hd, rfl, haddress, rfl⟩
    · rintro ⟨n, l, d, address, hl, hd, rfl, haddress, rfl⟩
      have hdeclares : l.declaresAlias = true := by simp [declaresAlias, hd]
      have ha : IsAlias (unclaimed memorySize lines) lines n l ⟨d.name, address, d.value, some l.number⟩ :=
        ⟨d, address, hd, haddress, rfl⟩
      obtain ⟨b, hb, hb'⟩ := hdeclared.2 n l hl hdeclares
      exact ⟨⟨n, l, hl, hdeclares, ha.unique hb' ▸ hb, ha⟩, rfl⟩

/-- Every alias of a table is found under its name. -/
theorem Tabulates.alias?_of_mem (h : t.Tabulates memorySize lines) (hc : Consistent memorySize lines)
    {a : Alias} (ha : a ∈ t.aliases) : t.alias? a.name = some a := by
  obtain ⟨declared, haliases, hdeclared⟩ := h.aliases
  rw [haliases, List.mem_append] at ha
  rw [h.alias?_eq_some_iff hc]
  rcases ha with ha | ha
  · obtain ⟨s, hs, rfl⟩ := List.mem_map.mp ha
    exact .inl ⟨s, hs, rfl, rfl⟩
  · obtain ⟨n, l, hl, -, -, d, address, hd, haddress, rfl⟩ := hdeclared.mem_iff.mp ha
    exact .inr ⟨n, l, d, address, hl, hd, rfl, haddress, rfl⟩

end Lookup

end SymbolTable

end Mac1
