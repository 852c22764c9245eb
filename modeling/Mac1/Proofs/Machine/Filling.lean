import Mac1.Machine.Basic
import Mac1.Proofs.Random.Generator

/-! New memories. A filler gives the cells their words in the order of the addresses, and a random one changes with every
    word that it gives. Going on for longer does not change the words before, so a smaller memory is the beginning of a
    larger one. This is kept when the special addresses are set, which lie at fixed places. -/

namespace Mac1

/-- A filler, in the state in which it comes to a cell. -/
inductive Filler where
  | known (value : Word)
  | seeded (generator : ChaCha.Generator)
  /-- The numbers for this cell and for those after it. -/
  | drawn (cell : Nat → Int16)

namespace Filler

/-- The low 16 bits of a random word, as a number with a sign. -/
def low (word : UInt32) : Word := Int64.ofInt (Int.bmod word.toNat 65536)

/-- The word for a cell. A seeded filler reads one random word for it. -/
def next : Filler → Word × Filler
  | .known value => (value, .known value)
  | .seeded generator => (low generator.next.1, .seeded generator.next.2)
  | .drawn cell => ((cell 0).toInt64, .drawn fun i => cell (i + 1))

/-- The words for a number of cells. -/
def words (f : Filler) : Nat → List Word
  | 0 => []
  | size + 1 => f.next.1 :: f.next.2.words size

end Filler

namespace Fill

/-- The filler that comes to the first cell. -/
def filler : Fill → Filler
  | .known value => .known value
  | .seeded seed => .seeded { key := Seed.key seed }
  | .drawn cell => .drawn cell

/-- The word for the cell at an address. -/
def cell : Fill → Nat → Word
  | .known value, _ => value
  | .seeded seed, address => cellOf (ChaCha.word (Seed.key seed) address)
  | .drawn cell, address => (cell address).toInt64

end Fill

/-- The memory of a new machine with `n` cells, next to that of one with `m` cells. -/
structure Machine.NewMemories (fill : Fill) (n m : Nat) : Prop where
  beginning : (new ⟨n, fill⟩).memory.cells.toList = (new ⟨m, fill⟩).memory.cells.toList.take n
  size : (new ⟨n, fill⟩).memory.size = n
  one : (new ⟨n, fill⟩).memory.get? 0 = some 1
  /-- All other cells hold what the filler has given, one word for each cell. -/
  filled : ∀ i, 0 < i → (new ⟨n, fill⟩).memory.get? i = (fill.filler.words n)[i]?
  range : ∀ seed, fill = .seeded seed → ∀ i w, 0 < i → (new ⟨n, fill⟩).memory.get? i = some w →
    -32768 ≤ w.toInt ∧ w.toInt ≤ 32767

/-! ### Random words -/

section Low
variable (word : UInt32)

theorem bmod_inside : -32768 ≤ Int.bmod word.toNat 65536 ∧ Int.bmod word.toNat 65536 ≤ 32767 := by
  have hlow := Int.le_bmod (x := word.toNat) (m := 65536) (by decide)
  have hhigh := Int.bmod_lt (x := word.toNat) (m := 65536) (by decide)
  omega

theorem Filler.toInt_low : (low word).toInt = Int.bmod word.toNat 65536 := by
  obtain ⟨hlow, hhigh⟩ := bmod_inside word
  exact Int64.toInt_ofInt_of_le (by omega) (by omega)

theorem Filler.low_inside : -32768 ≤ (low word).toInt ∧ (low word).toInt ≤ 32767 := by
  rw [toInt_low]
  exact bmod_inside word

theorem Fill.cellOf_eq_low : cellOf word = Filler.low word := by
  rw [← Int64.toInt_inj, Filler.toInt_low]
  calc (cellOf word).toInt
      = word.toUInt16.toInt16.toInt := Int16.toInt_toInt64 _
    _ = Int.bmod word.toUInt16.toNat 65536 := by
      rw [← Int16.toInt_toBitVec, UInt16.toBitVec_toInt16, BitVec.toInt_eq_toNat_bmod]
      rfl
    _ = Int.bmod word.toNat 65536 := by
      rw [UInt32.toNat_toUInt16, Int.natCast_emod]
      exact Int.emod_bmod _ 65536

end Low

/-! ### Words of a filler -/

section Words
variable {f : Filler} {fill : Fill} {w : Word} {i n m : Nat}

theorem Filler.length_words (f : Filler) (n : Nat) : (f.words n).length = n := by
  induction n generalizing f with
  | zero => rfl
  | succ n ih => rw [words, List.length_cons, ih]

/-- Going on for longer does not change the words before. -/
theorem Filler.take_words (f : Filler) (h : n ≤ m) : (f.words m).take n = f.words n := by
  induction n generalizing f m with
  | zero => rfl
  | succ n ih =>
    obtain ⟨m, rfl⟩ : ∃ k, m = k + 1 := ⟨m - 1, by omega⟩
    rw [words, words, List.take_succ_cons, ih _ (Nat.le_of_succ_le_succ h)]

/-- The words of a seeded filler have 16 bits, in whatever state the generator is. -/
theorem Filler.inside_of_mem_words {g : ChaCha.Generator} (hw : w ∈ (Filler.seeded g).words n) :
    -32768 ≤ w.toInt ∧ w.toInt ≤ 32767 := by
  induction n generalizing g with
  | zero => cases hw
  | succ n ih =>
    rcases List.mem_cons.mp hw with rfl | hw
    · exact low_inside g.next.1
    · exact ih hw

/-- The filler has given the words for the cells before an address. -/
inductive Filler.Gave : Filler → Fill → Nat → Prop
  | known {value : Word} {i : Nat} : Gave (.known value) (.known value) i
  | seeded {seed : UInt64} {i : Nat} {g : ChaCha.Generator} (h : g.Gave (Seed.key seed) i) :
    Gave (.seeded g) (.seeded seed) i
  | drawn {cell : Nat → Int16} {i : Nat} : Gave (.drawn fun j => cell (j + i)) (.drawn cell) i

theorem Fill.gave_filler (fill : Fill) : fill.filler.Gave fill 0 := by
  cases fill with
  | known value => exact .known
  | seeded seed => exact .seeded (ChaCha.Generator.gave_zero _)
  | drawn cell => exact @Filler.Gave.drawn cell 0

/-- A filler gives the word for the cell to which it has come. -/
theorem Filler.Gave.next (h : f.Gave fill i) : f.next.1 = fill.cell i ∧ f.next.2.Gave fill (i + 1) := by
  cases h with
  | known => exact ⟨rfl, .known⟩
  | seeded h =>
    obtain ⟨hword, hnext⟩ := h.next
    exact ⟨(congrArg low hword).trans (Fill.cellOf_eq_low _).symm, .seeded hnext⟩
  | @drawn cell =>
    have hrest : (fun j => cell (j + 1 + i)) = fun j => cell (j + (i + 1)) :=
      funext fun j => congrArg cell (by omega)
    refine ⟨congrArg (fun j => (cell j).toInt64) (Nat.zero_add i), ?_⟩
    rw [Filler.next, hrest]
    exact .drawn

theorem Filler.Gave.words_eq (h : f.Gave fill i) : f.words n = (List.range' i n).map fill.cell := by
  induction n generalizing f i with
  | zero => rfl
  | succ n ih =>
    obtain ⟨hword, hnext⟩ := h.next
    rw [words, List.range'_succ, List.map_cons, hword, ih hnext]

end Words

/-! ### Filled memories -/

section Filled
variable {n : Nat}

theorem Memory.toList_ofFn (n : Nat) (cell : Nat → Word) : (ofFn n cell).cells.toList = (List.range n).map cell := by
  apply List.ext_getElem
  · simp [ofFn]
  · intro i h h'
    simp [ofFn]

theorem Memory.ofFn_congr {cell cell' : Nat → Word} (h : ∀ i < n, cell i = cell' i) : ofFn n cell = ofFn n cell' := by
  rw [ofFn, ofFn]
  exact congrArg _ (congrArg _ (funext fun i => h i i.isLt))

theorem Fill.memory_eq_ofFn (fill : Fill) (size : Nat) : fill.memory size = .ofFn size fill.cell := by
  cases fill with
  | known value => rfl
  | drawn cell => rfl
  | seeded seed =>
    rw [memory]
    refine Memory.ofFn_congr fun i hi => ?_
    -- there is a block for every cell, also if the last block is not used up
    have hblock : (blocks (Seed.key seed) ((size + 15) / 16))[i / 16]? =
        some (ChaCha.block (Seed.key seed) (UInt64.ofNat (i / 16))) := by
      rw [blocks, Array.getElem?_ofFn, dif_pos (by omega)]
    rw [hblock, cell, ChaCha.word_eq_getElem _ (Nat.mod_lt i (by decide)) rfl]
    rfl

/-- A memory holds the words that its filler gives, in their order. -/
theorem Fill.toList_memory (fill : Fill) (size : Nat) : (fill.memory size).cells.toList = fill.filler.words size := by
  rw [memory_eq_ofFn, Memory.toList_ofFn, fill.gave_filler.words_eq, List.range_eq_range']

end Filled

/-! ### Special addresses -/

namespace SpecialAddress
variable {specials : List SpecialAddress} {s : SpecialAddress} {words : List Word} {i : Nat}

/-- Sets the cells of some special addresses, one after the other. -/
def setAll (specials : List SpecialAddress) (words : List Word) : List Word :=
  specials.foldl (fun words s => words.set s.address s.value) words

theorem length_setAll : (setAll specials words).length = words.length := by
  induction specials generalizing words with
  | nil => rfl
  | cons s specials ih => exact ih.trans List.length_set

theorem take_setAll (n : Nat) : (setAll specials words).take n = setAll specials (words.take n) := by
  induction specials generalizing words with
  | nil => rfl
  | cons s specials ih => exact ih.trans (congrArg (setAll specials) List.take_set)

theorem getElem?_setAll_of_ne (h : ∀ s ∈ specials, s.address ≠ i) : (setAll specials words)[i]? = words[i]? := by
  induction specials generalizing words with
  | nil => rfl
  | cons s specials ih =>
    have hne := h s List.mem_cons_self
    exact (ih fun s hs => h s (List.mem_cons_of_mem _ hs)).trans (List.getElem?_set_ne hne)

theorem getElem?_setAll_of_mem (hdistinct : specials.Pairwise fun s s' => s'.address ≠ s.address) (hs : s ∈ specials)
    (hsize : s.address < words.length) : (setAll specials words)[s.address]? = some s.value := by
  induction specials generalizing words with
  | nil => cases hs
  | cons s' specials ih =>
    obtain ⟨hothers, hdistinct⟩ := List.pairwise_cons.mp hdistinct
    rcases List.mem_cons.mp hs with rfl | hs
    · exact (getElem?_setAll_of_ne hothers).trans (List.getElem?_set_self hsize)
    · exact ih hdistinct hs (by rwa [List.length_set])

theorem toList_foldl_set (memory : Memory) :
    (specials.foldl (fun memory s => memory.set s.address s.value) memory).cells.toList =
      setAll specials memory.cells.toList := by
  induction specials generalizing memory with
  | nil => rfl
  | cons s specials ih => exact (ih _).trans (congrArg (setAll specials) Array.toList_setIfInBounds)

end SpecialAddress

/-! ### New machines -/

namespace Machine
open SpecialAddress
variable {fill : Fill} {i n m : Nat}

theorem toList_new (fill : Fill) (hn : 1 ≤ n) :
    (new ⟨n, fill⟩).memory.cells.toList = setAll SpecialAddress.all (fill.filler.words n) := by
  have hsize : max 1 n = n := Nat.max_eq_right hn
  rw [new, toList_foldl_set, Fill.toList_memory, hsize]

theorem get?_new (fill : Fill) (hn : 1 ≤ n) (i : Nat) :
    (new ⟨n, fill⟩).memory.get? i = (setAll SpecialAddress.all (fill.filler.words n))[i]? := by
  rw [← toList_new fill hn, Array.getElem?_toList]
  rfl

theorem get?_new_of_pos (hn : 1 ≤ n) (hi : 0 < i) : (new ⟨n, fill⟩).memory.get? i = (fill.filler.words n)[i]? := by
  rw [get?_new fill hn]
  refine getElem?_setAll_of_ne fun s hs => ?_
  rw [List.mem_singleton.mp hs]
  exact Nat.ne_of_lt hi

/-- However memory is filled, the memory of a new machine with fewer cells is the beginning of the memory of one with
    more cells. -/
theorem new_memory_beginning (fill : Fill) (hn : 1 ≤ n) (hnm : n ≤ m) : NewMemories fill n m := by
  constructor
  case beginning =>
    rw [toList_new fill hn, toList_new fill (Nat.le_trans hn hnm), take_setAll, Filler.take_words _ hnm]
  case size =>
    rw [Memory.size, ← Array.length_toList, toList_new fill hn, length_setAll, Filler.length_words]
  case one =>
    have hcell : SpecialAddress.one.address < (fill.filler.words n).length := by rwa [Filler.length_words]
    rw [get?_new fill hn]
    exact getElem?_setAll_of_mem (List.pairwise_singleton _ _) (List.mem_singleton_self _) hcell
  case filled => exact fun i hi => get?_new_of_pos hn hi
  case range =>
    rintro seed rfl i w hi hw
    rw [get?_new_of_pos hn hi] at hw
    exact Filler.inside_of_mem_words (List.mem_of_getElem? hw)

/-- The last cell of the smaller memory takes the first word of the second block. -/
theorem new_memory_beginning_seventeen : 1 ≤ 17 ∧ 17 ≤ 33 ∧ NewMemories (.seeded 1) 17 33 ∧
    (new ⟨17, .seeded 1⟩).memory.get? 16 = some (-19546) :=
  ⟨by decide, by decide, new_memory_beginning (.seeded 1) (by decide) (by decide), by decide +kernel⟩

end Machine

end Mac1
