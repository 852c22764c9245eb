import Mac1.Proofs.Text.Bytes
import Mac1.Proofs.Assembly.Symbols
import Mac1.Proofs.Assembly.Drafting

/-! What a symbol table lists and what it finds. The aliases are those of the special addresses, then one for each
    declaration, in order. The labels are kept in the order of their lines, but shown sorted by index and name. A look-up
    finds an entry of the list, the only one of its name. The draft from which a table comes about finds and lists the
    same, whatever order its map gives the labels. -/

namespace Mac1

open SourceLine

/-- The label comes before another one: it has the lower index, or the same index and a name with lower bytes. -/
def Label.Before (b b' : Label) : Prop :=
  b.index < b'.index ∨ b.index = b'.index ∧ Text.bytes b.name < Text.bytes b'.name

namespace SymbolTable

/-- What a table lists of some lines, and how its look-ups go with that. -/
structure Enumerates (lines : List SourceLine) (t : SymbolTable) : Prop where
  /-- Special addresses come first, then what each line declares. -/
  aliases : ∃ declared, t.aliases = SpecialAddress.all.map Alias.ofSpecial ++ declared ∧
    declared.map (fun a => (a.name, a.value, a.line)) =
      lines.filterMap fun l => l.alias?.map fun d => (d.name, d.value, some l.number)
  aliasNames : (t.aliases.map (·.name)).Nodup
  aliasLines : (t.aliases.filterMap (·.line)).Pairwise (· < ·)
  alias? : ∀ name a, t.alias? name = some a ↔ a ∈ t.aliases ∧ a.name = name
  /-- Each declared label is listed once, and no other name is. -/
  labels : (t.sortedLabels.map (·.name)).Perm (SourceLine.labels lines)
  labelNames : (t.sortedLabels.map (·.name)).Nodup
  sorted : t.sortedLabels.Pairwise Label.Before
  label? : ∀ name b, t.label? name = some b ↔ b ∈ t.sortedLabels ∧ b.name = name
  /-- The line of a label is the one that declares it. -/
  labelLine : ∀ name number, (t.label? name).map (·.line) = some number ↔
    ∃ l ∈ lines, l.label? = some name ∧ l.number = number
  monotone : ∀ b ∈ t.sortedLabels, ∀ b' ∈ t.sortedLabels, b.line < b'.line → b.index ≤ b'.index

/-- The order by which labels are sorted: by index, and labels of one index by name. -/
def labelLE (a b : Label) : Bool := a.index < b.index || (a.index == b.index && decide (a.name ≤ b.name))

end SymbolTable

/-- The draft of a program keeps its lines, and finds and lists the same as its table, in whatever order the map of labels
    lists them before they are sorted. No look-up goes to a place outside of the array. -/
structure Draft.Keeps (d : Draft) (lines : List SourceLine) (t : SymbolTable) : Prop where
  lines : d.lines.toList = lines
  aliases : d.aliases.toList = t.aliases
  alias? : ∀ name, d.alias? name = .ok (t.alias? name)
  label? : ∀ name, d.label? name = (t.label? name).map (·.index)
  labelLine? : ∀ name, d.labelLine? name = (t.label? name).map (·.line)
  sorted : ∀ listed : List Label, listed.Perm d.listLabels → listed.mergeSort SymbolTable.labelLE = t.sortedLabels

namespace SymbolTable

/-! ### Sorting -/

section Sorting
variable {t : SymbolTable} {b : Label}

theorem labelLE_iff {a b : Label} : labelLE a b = true ↔ a.index < b.index ∨ a.index = b.index ∧ a.name ≤ b.name := by
  simp [labelLE]

theorem labelLE_trans (a b c : Label) (hab : labelLE a b = true) (hbc : labelLE b c = true) : labelLE a c = true := by
  rw [labelLE_iff] at *
  rcases hab with hab | ⟨hab, hname⟩
  · exact .inl (by omega)
  · rcases hbc with hbc | ⟨hbc, hname'⟩
    · exact .inl (by omega)
    · exact .inr ⟨hab.trans hbc, le_trans hname hname'⟩

theorem labelLE_total (a b : Label) : (labelLE a b || labelLE b a) = true := by
  rw [Bool.or_eq_true, labelLE_iff, labelLE_iff]
  rcases Nat.lt_trichotomy a.index b.index with h | h | h
  · exact .inl (.inl h)
  · exact (le_total a.name b.name).imp (fun hname => .inr ⟨h, hname⟩) fun hname => .inr ⟨h.symm, hname⟩
  · exact .inr (.inl h)

theorem labelLE_antisymm {a b : Label} (hab : labelLE a b = true) (hba : labelLE b a = true) : a.name = b.name := by
  rw [labelLE_iff] at hab hba
  rcases hab with hlt | ⟨hindex, hle⟩
  · rcases hba with hlt' | ⟨hindex, -⟩ <;> omega
  · rcases hba with hlt | ⟨-, hle'⟩
    · omega
    · exact le_antisymm hle hle'

theorem perm_sortedLabels (t : SymbolTable) : t.sortedLabels.Perm t.labels :=
  List.mergeSort_perm _ _

theorem mem_sortedLabels : b ∈ t.sortedLabels ↔ b ∈ t.labels :=
  (perm_sortedLabels t).mem_iff

/-- Labels without a name in common stand in strict order, by the bytes of their names. -/
theorem pairwise_sortedLabels (h : (t.sortedLabels.map (·.name)).Nodup) : t.sortedLabels.Pairwise Label.Before := by
  have hsorted : t.sortedLabels.Pairwise fun a b => labelLE a b = true :=
    List.pairwise_mergeSort labelLE_trans labelLE_total t.labels
  refine hsorted.imp₂ (fun a b hle hne => ?_) (List.pairwise_map.mp h)
  exact (labelLE_iff.mp hle).imp_right fun hsame => ⟨hsame.1, Text.bytes_lt (lt_of_le_of_ne hsame.2 hne)⟩

/-- Labels without a name in common are sorted alike, in whatever order they are listed before. -/
theorem mergeSort_eq_sortedLabels (h : (t.labels.map (·.name)).Nodup) {listed : List Label} (hlisted : listed.Perm t.labels) :
    listed.mergeSort labelLE = t.sortedLabels := by
  refine List.Perm.eq_of_pairwise (fun a b ha hb hab hba => ?_) (List.pairwise_mergeSort labelLE_trans labelLE_total _)
    (List.pairwise_mergeSort labelLE_trans labelLE_total t.labels)
    ((List.mergeSort_perm _ _).trans (hlisted.trans (perm_sortedLabels t).symm))
  have hmem : a ∈ t.labels := hlisted.mem_iff.mp (List.mem_mergeSort.mp ha)
  exact Option.some.inj (((find?_key_eq_some_iff h).mpr ⟨hmem, labelLE_antisymm hab hba⟩).symm.trans
    ((find?_key_eq_some_iff h).mpr ⟨mem_sortedLabels.mp hb, rfl⟩))

end Sorting

/-! ### Entries -/

section Entries
variable {memorySize : Nat} {texts : List String} {lines : List SourceLine} {t : SymbolTable} {d : Draft}

theorem pairwise_number (h : Reads texts lines) : lines.Pairwise fun l l' => l.number < l'.number := by
  rw [List.pairwise_iff_getElem]
  intro n n' hn hn' hlt
  rw [h.numbers n _ (List.getElem?_eq_getElem hn), h.numbers n' _ (List.getElem?_eq_getElem hn')]
  omega

/-- The lines of the aliases are those that declare one. -/
theorem Tabulates.aliasLines (h : t.Tabulates memorySize lines) :
    t.aliases.filterMap (·.line) = lines.filterMap fun l => l.alias?.map fun _ => l.number := by
  obtain ⟨declared, haliases, hdeclared⟩ := h.aliases
  have hspecial : (SpecialAddress.all.map Alias.ofSpecial).filterMap (·.line) = [] := rfl
  have hlines := congrArg (List.filterMap id) (map_of_placed_isAlias (fun _ _ line => line) hdeclared)
  rw [List.filterMap_map, List.filterMap_filterMap] at hlines
  rw [haliases, List.filterMap_append, hspecial, List.nil_append]
  refine hlines.trans (List.filterMap_congr fun l _ => ?_)
  cases l.alias? <;> rfl

theorem Tabulates.index_mono (h : t.Tabulates memorySize lines) (hr : Reads texts lines) {b b' : Label}
    (hb : b ∈ t.labels) (hb' : b' ∈ t.labels) (hline : b.line < b'.line) : b.index ≤ b'.index := by
  obtain ⟨n, l, hl, -, -, name, -, rfl⟩ := h.labels.mem_iff.mp hb
  obtain ⟨n', l', hl', -, -, name', -, rfl⟩ := h.labels.mem_iff.mp hb'
  simp only [hr.numbers n l hl, hr.numbers n' l' hl'] at hline
  exact Nat.add_le_add_left (countP_take_mono (by omega)) _

theorem Tabulates.enumerates (h : t.Tabulates memorySize lines) (hc : Consistent memorySize lines)
    (hr : Reads texts lines) : t.Enumerates lines := by
  have hlabels : (t.sortedLabels.map (·.name)).Perm (SourceLine.labels lines) :=
    h.labels_names ▸ (perm_sortedLabels t).map _
  have hnames : (t.sortedLabels.map (·.name)).Nodup := hlabels.nodup_iff.mpr hc.labels
  constructor
  case aliases =>
    obtain ⟨declared, haliases, hdeclared⟩ := h.aliases
    exact ⟨declared, haliases, map_of_placed_isAlias (fun name value line => (name, value, line)) hdeclared⟩
  case aliasNames => exact h.nodup_aliases hc
  case aliasLines =>
    rw [h.aliasLines]
    refine (pairwise_number hr).filterMap _ fun l l' hlt k hk k' hk' => ?_
    obtain ⟨-, -, rfl⟩ := Option.map_eq_some_iff.mp hk
    obtain ⟨-, -, rfl⟩ := Option.map_eq_some_iff.mp hk'
    exact hlt
  case alias? => exact fun _ _ => find?_key_eq_some_iff (h.nodup_aliases hc)
  case labels => exact hlabels
  case labelNames => exact hnames
  case sorted => exact pairwise_sortedLabels hnames
  case label? =>
    intro name b
    rw [mem_sortedLabels]
    exact find?_key_eq_some_iff (h.labels_names ▸ hc.labels)
  case labelLine =>
    intro name number
    simp only [Option.map_eq_some_iff, h.label?_eq_some_iff hc]
    constructor
    · rintro ⟨b, ⟨n, l, hl, hname, rfl⟩, rfl⟩
      exact ⟨l, List.mem_of_getElem? hl, hname, rfl⟩
    · rintro ⟨l, hl, hname, rfl⟩
      obtain ⟨n, hn⟩ := List.mem_iff_getElem?.mp hl
      exact ⟨_, ⟨n, l, hn, hname, rfl⟩, rfl⟩
  case monotone =>
    intro b hb b' hb' hline
    exact h.index_mono hr (mem_sortedLabels.mp hb) (mem_sortedLabels.mp hb') hline

/-- The map of a draft lists the labels of its table, in some order. -/
theorem perm_listLabels (h : d.Represents t) (hnames : (t.labels.map (·.name)).Nodup) :
    d.listLabels.Perm t.labels := by
  have hkeys : d.labels.toList.Pairwise fun x y => x.1 ≠ y.1 :=
    Std.HashMap.distinct_keys_toList.imp fun hne => by simpa using hne
  have hlisted : d.listLabels.Nodup :=
    List.pairwise_map.mpr (hkeys.imp fun hne hsame => hne (congrArg Label.name hsame))
  have hlabels : t.labels.Nodup :=
    (List.pairwise_map.mp hnames).imp fun hne hsame => hne (congrArg Label.name hsame)
  refine (List.perm_ext_iff_of_nodup hlisted hlabels).mpr fun b => ?_
  have hfound : b ∈ t.labels ↔ t.label? b.name = some b := by
    rw [SymbolTable.label?, find?_key_eq_some_iff hnames, and_iff_left rfl]
  rw [hfound, Draft.listLabels, List.mem_map]
  constructor
  · rintro ⟨⟨name, entry⟩, hmem, rfl⟩
    have hentry := Std.HashMap.mem_toList_iff_getElem?_eq_some.mp hmem
    rw [h.labels, Option.map_eq_some_iff] at hentry
    obtain ⟨b, hb, rfl⟩ := hentry
    have hname : b.name = name := by simpa using List.find?_some hb
    subst hname
    exact hb
  · intro hb
    refine ⟨(b.name, b.entry), Std.HashMap.mem_toList_iff_getElem?_eq_some.mpr ?_, rfl⟩
    rw [h.labels, hb, Option.map_some]

theorem Tabulates.keeps (h : t.Tabulates memorySize lines) (hc : Consistent memorySize lines)
    (hlines : d.lines.toList = lines) (hd : d.Represents t) : d.Keeps lines t where
  lines := hlines
  aliases := hd.aliases
  alias? := hd.alias?_eq
  label? := hd.label?_eq
  labelLine? := hd.labelLine?_eq
  sorted listed hlisted := by
    have hnames : (t.labels.map (·.name)).Nodup := h.labels_names ▸ hc.labels
    exact mergeSort_eq_sortedLabels hnames (hlisted.trans (perm_listLabels hd hnames))

/-- If the lines of a text can be read and addresses are found for their aliases, the symbol table lists what the lines
    declare, and its look-ups find what it lists. The draft of the table succeeds too, and finds and lists the same. -/
theorem entries_of_lines (hread : readAll memorySize [] texts = .ok lines) (ht : ofLines memorySize lines = .ok t) :
    Reads texts lines ∧ t.Enumerates lines ∧ ∃ d, Draft.ofTexts memorySize texts = .ok d ∧ d.Keeps lines t := by
  obtain ⟨hreads, hc⟩ := readAll_eq_ok_iff.mp hread
  have htabulates := ((ofLines_eq_ok_iff hc).mp ht).2
  refine ⟨hreads, htabulates.enumerates hc hreads, ?_⟩
  have hpace := Draft.keepsPace_ofTexts memorySize texts
  rw [hread] at hpace
  change Draft.KeepsPace id _ (ofLines memorySize lines >>= fun t => .ok (lines, t)) _ at hpace
  rw [ht] at hpace
  obtain ⟨e, herror, -⟩ | ⟨_, d, hok, hd, hlines, hrepresents⟩ := hpace.or
  · cases herror
  · cases hok
    exact ⟨d, hd, htabulates.keeps hc hlines hrepresents⟩

end Entries

/-- Labels of one instruction, and aliases with and without an address. -/
def crossroads : List String := ["ä:", "#alias y =1", "z:", "#alias x @5", "a: lodd y"]

theorem entries_of_lines_crossroads : ∃ lines t, readAll 65536 [] crossroads = .ok lines ∧
    ofLines 65536 lines = .ok t ∧ Reads crossroads lines ∧ t.Enumerates lines ∧
    (∃ d, Draft.ofTexts 65536 crossroads = .ok d ∧ d.Keeps lines t) ∧
    t.labels = [⟨"ä", 1, 1⟩, ⟨"z", 1, 3⟩, ⟨"a", 1, 5⟩] := by
  have hlines : (readAll 65536 [] crossroads).toOption.map (fun lines => (ofLines 65536 lines).toOption.map (·.labels)) =
      some (some [⟨"ä", 1, 1⟩, ⟨"z", 1, 3⟩, ⟨"a", 1, 5⟩]) := by
    decide +kernel
  obtain ⟨lines, hread, hlines⟩ := exists_eq_ok_of_map_toOption hlines
  obtain ⟨t, ht, hlabels⟩ := exists_eq_ok_of_map_toOption hlines
  obtain ⟨hreads, hentries, hdraft⟩ := entries_of_lines hread ht
  exact ⟨lines, t, hread, ht, hreads, hentries, hdraft, hlabels⟩

end SymbolTable

end Mac1
