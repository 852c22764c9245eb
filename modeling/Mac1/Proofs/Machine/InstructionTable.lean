import Mac1.Proofs.Machine.Faults

/-! The instruction table. `Machine.row` lists what each operation makes of the registers and which cell it sets, in
    terms of the machine before it; addresses are integers there and do not wrap around. An operation that finds its
    address inside memory does what its row says and nothing else. -/

namespace Mac1.Machine
open MicroOp

/-! ### Rows -/

/-- The registers after an operation, and the cell that it sets, if it sets one. -/
structure Row where
  ac : Word
  pc : Word
  sp : Int
  cell : Option (Int × Word) := none
  deriving DecidableEq, Repr

variable {m m' : Machine}

/-- Where the next word is put on the stack: one cell lower, or in the last cell. -/
def below (m : Machine) : Nat := if m.sp = 0 then m.memory.size - 1 else m.sp - 1

/-- Where the stack pointer stands after a word is taken: one cell higher, or at the first cell. -/
def above (m : Machine) : Nat := if m.sp = m.memory.size - 1 then 0 else m.sp + 1

/-- The word at an address inside memory. -/
def wordAt (m : Machine) (address : Int) : Word := (m.memory.get? address.toNat).getD 0

/-- The address that an operation uses, if it uses one. -/
def address? (m : Machine) (op : Opcode) (x : Word) : Option Int :=
  match op with
  | .lodd | .stod | .addd | .subd => some x.toInt
  | .lodl | .stol | .addl | .subl => some (m.sp + x.toInt)
  | .pshi | .popi => some m.ac.toInt
  | _ => none

/-- The row of an operation. Registers that it does not name stay as they are. -/
def row (m : Machine) (op : Opcode) (x : Word) : Row :=
  let same : Row := { ac := m.ac, pc := m.pc, sp := m.sp }
  let jump (condition : Prop) [Decidable condition] : Row := if condition then { same with pc := x } else same
  match op with
  | .loco => { same with ac := x }
  | .lodd => { same with ac := m.wordAt x.toInt }
  | .stod => { same with cell := some (x.toInt, m.ac) }
  | .addd => { same with ac := m.ac + m.wordAt x.toInt }
  | .subd => { same with ac := m.ac - m.wordAt x.toInt }
  | .lodl => { same with ac := m.wordAt (m.sp + x.toInt) }
  | .stol => { same with cell := some (m.sp + x.toInt, m.ac) }
  | .addl => { same with ac := m.ac + m.wordAt (m.sp + x.toInt) }
  | .subl => { same with ac := m.ac - m.wordAt (m.sp + x.toInt) }
  | .push => { same with sp := m.below, cell := some (m.below, m.ac) }
  | .pop => { same with ac := m.wordAt m.sp, sp := m.above }
  | .pshi => { same with sp := m.below, cell := some (m.below, m.wordAt m.ac.toInt) }
  | .popi => { same with sp := m.above, cell := some (m.ac.toInt, m.wordAt m.sp) }
  | .jpos => jump (0 ≤ m.ac.toInt)
  | .jzer => jump (m.ac.toInt = 0)
  | .jneg => jump (m.ac.toInt < 0)
  | .jnze => jump (m.ac.toInt ≠ 0)
  | .jump => { same with pc := x }
  | .call => { same with pc := x, sp := m.below, cell := some (m.below, m.pc) }
  | .retn => { same with pc := m.wordAt m.sp, sp := m.above }
  | .swap => { same with ac := Int64.ofNat m.sp, sp := m.ac.toInt % m.memory.size }
  | .insp => { same with sp := (m.sp + x.toInt).bmod Int64.size % m.memory.size }
  | .desp => { same with sp := (m.sp - x.toInt).bmod Int64.size % m.memory.size }

/-- The second machine comes from the first as a row says: it has the registers of the row, and its memory differs
    only in the cell of the row. -/
structure Realizes (m m' : Machine) (row : Row) : Prop where
  ac : m'.ac = row.ac
  pc : m'.pc = row.pc
  sp : (m'.sp : Int) = row.sp
  size : m'.memory.size = m.memory.size
  cell : ∀ address value, row.cell = some (address, value) → 0 ≤ address ∧ m'.memory.get? address.toNat = some value
  frame : ∀ i : Nat, (∀ address value, row.cell = some (address, value) → (i : Int) ≠ address) →
    m'.memory.get? i = m.memory.get? i
  halted : m'.halted = m.halted

/-! ### Words and addresses -/

theorem emod_eq_of_add_mul {a b n : Int} (k : Int) (hlow : 0 ≤ b) (hhigh : b < n) (h : a = b + n * k) : a % n = b := by
  rw [h, Int.add_mul_emod_self_left, Int.emod_eq_of_lt hlow hhigh]

section Inside
variable (h : m.StackInside)
include h

theorem below_eq : (m.below : Int) = ((m.sp : Int) - 1) % m.memory.size := by
  have hlt : m.sp < m.memory.size := h
  unfold below
  split
  · exact (emod_eq_of_add_mul (-1) (by omega) (by omega) (by omega)).symm
  · exact (emod_eq_of_add_mul 0 (by omega) (by omega) (by omega)).symm

theorem above_eq : (m.above : Int) = ((m.sp : Int) + 1) % m.memory.size := by
  have hlt : m.sp < m.memory.size := h
  unfold above
  split
  · exact (emod_eq_of_add_mul 1 (by omega) (by omega) (by omega)).symm
  · exact (emod_eq_of_add_mul 0 (by omega) (by omega) (by omega)).symm

theorem below_lt : m.below < m.memory.size := by
  have hlt : m.sp < m.memory.size := h
  unfold below
  split <;> omega

variable (hsize : m.memory.size < 2 ^ 60)
include hsize

theorem toInt_sp : (Int64.ofNat m.sp).toInt = m.sp := by
  have hlt : m.sp < m.memory.size := h
  exact Int64.toInt_ofNat_of_lt (by omega)

/-- The sum of the stack pointer and a word is inside memory if its integer value is: memory ends long before the
    largest word. -/
theorem inside_add_iff (x : Word) : Word.Inside m.memory.size (Int64.ofNat m.sp + x) ↔
    0 ≤ (m.sp : Int) + x.toInt ∧ (m.sp : Int) + x.toInt < m.memory.size := by
  have hlt : m.sp < m.memory.size := h
  have := x.le_toInt
  have := x.toInt_lt
  rw [Word.Inside, Int64.toInt_add, toInt_sp h hsize, Int.bmod_def]
  split <;> omega

theorem toInt_sp_add {x : Word} (hinside : Word.Inside m.memory.size (Int64.ofNat m.sp + x)) :
    (Int64.ofNat m.sp + x).toInt = (m.sp : Int) + x.toInt := by
  obtain ⟨index, hindex⟩ := Word.exists_index?_iff.mpr hinside
  rw [Word.add_toInt_of_index? h hsize hindex, (Word.index?_eq_some_iff.mp hindex).1]

/-- Moved by less than the memory size, the stack pointer stays a word. -/
theorem bmod_size_of_inside {x : Word} (hinside : Word.Inside m.memory.size x) {sp : Int}
    (hsp : sp = m.sp + x.toInt ∨ sp = m.sp - x.toInt) : sp.bmod Int64.size = sp := by
  have hlt : m.sp < m.memory.size := h
  obtain ⟨hlow, hhigh⟩ := hinside
  rw [Int64.size]
  rcases hsp with rfl | rfl <;> exact Int.bmod_eq_of_le (by omega) (by omega)

theorem moveSp_sub_one : m.moveSp (Int64.ofNat m.sp - 1) = { m with sp := m.below } := by
  have hlt : m.sp < m.memory.size := h
  have hvalue : (Int64.ofNat m.sp - 1).toInt = (m.sp : Int) - 1 := by
    rw [Int64.toInt_sub, toInt_sp h hsize, Int64.toInt_one, Int.bmod_eq_of_le (by omega) (by omega)]
  rw [moveSp, hvalue, ← below_eq h, Int.toNat_natCast]

theorem moveSp_add_one : m.moveSp (Int64.ofNat m.sp + 1) = { m with sp := m.above } := by
  have hlt : m.sp < m.memory.size := h
  have hvalue : (Int64.ofNat m.sp + 1).toInt = (m.sp : Int) + 1 := by
    rw [Int64.toInt_add, toInt_sp h hsize, Int64.toInt_one, Int.bmod_eq_of_le (by omega) (by omega)]
  rw [moveSp, hvalue, ← above_eq h, Int.toNat_natCast]

end Inside

/-! ### Micro-operations -/

section MicroOperations
variable {β : Type} {b : β}

theorem of_read_bind {address : Word} {g : Word → MicroOp β} (hok : (read address >>= g) m = .ok b m') :
    Word.Inside m.memory.size address ∧ g (m.wordAt address.toInt) m = .ok b m' := by
  cases hindex : Word.index? m.memory.size address with
  | none =>
    have hread : read address m = .error (.outOfBounds address) m := by
      unfold MicroOp.read Memory.read
      rw [hindex]
    rw [bind_of_error hread] at hok
    cases hok
  | some index =>
    have hread : read address m = .ok (m.memory.cells.getD index 0) m := by
      unfold MicroOp.read Memory.read
      rw [hindex]
    obtain ⟨haddress, hlt⟩ := Word.index?_eq_some_iff.mp hindex
    have hword : m.wordAt address.toInt = m.memory.cells.getD index 0 := by
      rw [wordAt, haddress, Int.toNat_natCast, Memory.get?, Array.getD_eq_getD_getElem?]
    rw [bind_of_ok hread] at hok
    exact ⟨Word.exists_index?_iff.mp ⟨index, hindex⟩, hword ▸ hok⟩

theorem of_check_bind {address : Word} {g : Nat → MicroOp β} (hok : (check address >>= g) m = .ok b m') :
    Word.Inside m.memory.size address ∧ g address.toInt.toNat m = .ok b m' := by
  cases hindex : Word.index? m.memory.size address with
  | none =>
    have hcheck : check address m = .error (.outOfBounds address) m := by
      unfold check Memory.check
      rw [hindex]
    rw [bind_of_error hcheck] at hok
    cases hok
  | some index =>
    have hcheck : check address m = .ok index m := by
      unfold check Memory.check
      rw [hindex]
    obtain ⟨haddress, hlt⟩ := Word.index?_eq_some_iff.mp hindex
    rw [bind_of_ok hcheck] at hok
    refine ⟨Word.exists_index?_iff.mp ⟨index, hindex⟩, ?_⟩
    rw [haddress, Int.toNat_natCast]
    exact hok

theorem exists_setSp_eq (value : Word) : ∃ log, setSp value m = .ok () { m.moveSp value with log := log } := ⟨_, rfl⟩

theorem getAc_bind {g : Word → MicroOp β} : (getAc >>= g) m = g m.ac m := rfl

theorem getSp_bind {g : Word → MicroOp β} : (getSp >>= g) m = g (Int64.ofNat m.sp) m := rfl

variable (h : m.StackInside) (hsize : m.memory.size < 2 ^ 60)
include h hsize

theorem exists_push_eq (value : Word) : ∃ log, push value m =
    .ok () { m with sp := m.below, memory := m.memory.set m.below value, log := log } := by
  obtain ⟨log, hset⟩ := exists_setSp_eq (m := m) (Int64.ofNat m.sp - 1)
  rw [moveSp_sub_one h hsize] at hset
  refine ⟨log.push (.cell m.below value), ?_⟩
  rw [push, getSp_bind, bind_of_ok hset]
  exact if_pos (below_lt h)

theorem exists_pop_eq : ∃ log, pop m = .ok (m.wordAt m.sp) { m with sp := m.above, log := log } := by
  have hlt : m.sp < m.memory.cells.size := h
  have htop : top m = .ok (m.wordAt m.sp) m := by simp [top, wordAt, Memory.get?, hlt]
  obtain ⟨log, hset⟩ := exists_setSp_eq (m := m) (Int64.ofNat m.sp + 1)
  rw [moveSp_add_one h hsize] at hset
  refine ⟨log, ?_⟩
  rw [pop, bind_of_ok htop, getSp_bind, bind_of_ok hset]
  rfl

end MicroOperations

/-! ### Operations -/

/-- Only registers change. -/
theorem Realizes.of_registers (ac pc : Word) (sp : Nat) (log : Array Mutation) :
    m.Realizes { m with ac := ac, pc := pc, sp := sp, log := log } { ac, pc, sp } where
  ac := rfl
  pc := rfl
  sp := rfl
  size := rfl
  cell _ _ hcell := nomatch hcell
  frame _ _ := rfl
  halted := rfl

/-- Registers and one cell change. -/
theorem Realizes.of_cell (ac pc : Word) (sp : Nat) (log : Array Mutation) {address : Int} (value : Word)
    (hlow : 0 ≤ address) (hhigh : address < m.memory.size) :
    m.Realizes { m with ac := ac, pc := pc, sp := sp, memory := m.memory.set address.toNat value, log := log }
      { ac, pc, sp, cell := some (address, value) } := by
  refine ⟨rfl, rfl, rfl, Memory.size_set _ _ _, ?_, ?_, rfl⟩
  · intro a v hcell
    cases hcell
    exact ⟨hlow, (Memory.get?_set _ _ _ _).trans (if_pos ⟨rfl, by omega⟩)⟩
  · intro i hother
    have hne : i ≠ address.toNat := fun hi => hother address value rfl (by omega)
    exact (Memory.get?_set _ _ _ _).trans (if_neg fun hi => hne hi.1)

theorem realizes_of_jumpIf {condition condition' : Prop} [Decidable condition] [Decidable condition'] {x : Word}
    (hsame : condition' ↔ condition) (hok : jumpIf condition' x m = .ok () m') :
    m.Realizes m' (if condition then { ac := m.ac, pc := x, sp := m.sp }
      else { ac := m.ac, pc := m.pc, sp := m.sp }) := by
  unfold jumpIf at hok
  by_cases hjumps : condition
  · rw [decide_eq_true (hsame.mpr hjumps), if_pos rfl] at hok
    rw [if_pos hjumps]
    cases hok
    exact .of_registers _ _ _ _
  · rw [decide_eq_false (mt hsame.mp hjumps), if_neg Bool.false_ne_true] at hok
    rw [if_neg hjumps]
    cases hok
    exact .of_registers _ _ _ _

section Inside
variable (h : m.StackInside)
include h

theorem realizes_of_setSp {ac value : Word} {log : Array Mutation} {sp : Int}
    (hsp : value.toInt % (m.memory.size : Int) = sp) (hok : setSp value { m with ac := ac, log := log } = .ok () m') :
    m.Realizes m' { ac, pc := m.pc, sp } := by
  have hlt : m.sp < m.memory.size := h
  have hnonneg : 0 ≤ value.toInt % (m.memory.size : Int) := Int.emod_nonneg _ (by omega)
  cases hok
  rw [← hsp, ← Int.toNat_of_nonneg hnonneg]
  exact .of_registers _ _ _ _

theorem realizes_push (value pc : Word) (log : Array Mutation) :
    m.Realizes { m with pc := pc, sp := m.below, memory := m.memory.set m.below value, log := log }
      { ac := m.ac, pc, sp := m.below, cell := some ((m.below : Int), value) } :=
  .of_cell _ _ _ _ _ (Int.natCast_nonneg _) (Int.ofNat_lt.mpr (below_lt h))

variable (hsize : m.memory.size < 2 ^ 60)
include hsize

theorem realizes_of_apply {op : Opcode} {x : Word} (hok : m.apply op x = .ok () m') :
    m.Realizes m' (m.row op x) := by
  cases op with
  | loco =>
    cases hok
    exact .of_registers _ _ _ _
  | lodd =>
    obtain ⟨-, hok⟩ := of_read_bind hok
    cases hok
    exact .of_registers _ _ _ _
  | stod =>
    obtain ⟨hinside, hok⟩ := of_check_bind hok
    cases hok
    exact .of_cell _ _ _ _ _ hinside.1 hinside.2
  | addd | subd =>
    obtain ⟨-, hok⟩ := of_read_bind hok
    cases hok
    exact .of_registers _ _ _ _
  | lodl | addl | subl =>
    obtain ⟨hinside, hok⟩ := of_read_bind (getSp_bind.symm.trans hok)
    rw [toInt_sp_add h hsize hinside] at hok
    cases hok
    exact .of_registers _ _ _ _
  | stol =>
    obtain ⟨hinside, hok⟩ := of_check_bind (getSp_bind.symm.trans hok)
    rw [toInt_sp_add h hsize hinside] at hok
    cases hok
    obtain ⟨hlow, hhigh⟩ := (inside_add_iff h hsize x).mp hinside
    exact .of_cell _ _ _ _ _ hlow hhigh
  | push =>
    obtain ⟨log, hpush⟩ := exists_push_eq h hsize m.ac
    cases (getAc_bind.trans hpush).symm.trans hok
    exact realizes_push h _ _ _
  | pop =>
    obtain ⟨log, hpop⟩ := exists_pop_eq h hsize
    cases (bind_of_ok hpop).symm.trans hok
    exact .of_registers _ _ _ _
  | pshi =>
    obtain ⟨-, hok⟩ := of_read_bind (getAc_bind.symm.trans hok)
    obtain ⟨log, hpush⟩ := exists_push_eq h hsize (m.wordAt m.ac.toInt)
    cases hpush.symm.trans hok
    exact realizes_push h _ _ _
  | popi =>
    -- the cell is found before the stack pointer moves, and its word is taken before it is set
    obtain ⟨hinside, hok⟩ := of_check_bind (getAc_bind.symm.trans hok)
    obtain ⟨log, hpop⟩ := exists_pop_eq h hsize
    cases (bind_of_ok hpop).symm.trans hok
    exact .of_cell _ _ _ _ _ hinside.1 hinside.2
  | jpos => exact realizes_of_jumpIf Int64.le_iff_toInt_le hok
  | jzer => exact realizes_of_jumpIf Int64.toInt_inj.symm hok
  | jneg => exact realizes_of_jumpIf Int64.lt_iff_toInt_lt hok
  | jnze => exact realizes_of_jumpIf (not_congr Int64.toInt_inj.symm) hok
  | jump =>
    cases hok
    exact .of_registers _ _ _ _
  | call =>
    obtain ⟨log, hpush⟩ := exists_push_eq h hsize m.pc
    cases (bind_of_ok hpush).symm.trans hok
    exact realizes_push h _ _ _
  | retn =>
    obtain ⟨log, hpop⟩ := exists_pop_eq h hsize
    cases (bind_of_ok hpop).symm.trans hok
    exact .of_registers _ _ _ _
  | swap => exact realizes_of_setSp h rfl hok
  | insp =>
    have hsum : (Int64.ofNat m.sp + x).toInt = ((m.sp : Int) + x.toInt).bmod Int64.size := by
      rw [Int64.toInt_add, toInt_sp h hsize]
    exact realizes_of_setSp h (congrArg (· % (m.memory.size : Int)) hsum) hok
  | desp =>
    have hdifference : (Int64.ofNat m.sp - x).toInt = ((m.sp : Int) - x.toInt).bmod Int64.size := by
      rw [Int64.toInt_sub, toInt_sp h hsize]
    exact realizes_of_setSp h (congrArg (· % (m.memory.size : Int)) hdifference) hok

/-- An operation succeeds exactly if the address that it uses is inside memory. -/
theorem exists_apply_eq_ok_iff {op : Opcode} {x : Word} : (∃ m', m.apply op x = .ok () m') ↔
    ∀ address, m.address? op x = some address → 0 ≤ address ∧ address < m.memory.size := by
  have hchecks := checks_apply h op x
  -- an operation either checks the word of its address, or has no address
  have hchecked : (∃ w address, m.checked? op x = some w ∧ m.address? op x = some address ∧
      (Word.Inside m.memory.size w ↔ 0 ≤ address ∧ address < m.memory.size)) ∨
      m.checked? op x = none ∧ m.address? op x = none := by
    cases op with
    | lodd | stod | addd | subd | pshi | popi => exact .inl ⟨_, _, rfl, rfl, Iff.rfl⟩
    | lodl | stol | addl | subl => exact .inl ⟨_, _, rfl, rfl, inside_add_iff h hsize x⟩
    | _ => exact .inr ⟨rfl, rfl⟩
  rcases hchecked with ⟨w, address, hw, haddress, hinside⟩ | ⟨hw, haddress⟩
  · rw [hw] at hchecks
    rw [haddress]
    constructor
    · intro hok a ha
      cases ha
      refine hinside.mp (Classical.byContradiction fun houtside => ?_)
      obtain ⟨m', hok⟩ := hok
      rw [hchecks.2 houtside] at hok
      cases hok
    · intro ha
      obtain ⟨_, m', hok⟩ := hchecks.1 (hinside.mpr (ha address rfl))
      exact ⟨m', hok⟩
  · rw [hw] at hchecks
    obtain ⟨_, m', hok⟩ := hchecks
    exact iff_of_true ⟨m', hok⟩ fun a ha => by rw [haddress] at ha; cases ha

end Inside

/-! ### The table -/

/-- An operation succeeds exactly if the address that it uses, if it uses one, is inside memory, and then does what its
    row says. A distance below the memory size moves the stack pointer by its value, and a swap makes the stack
    pointer the accumulator's value. -/
theorem apply_realizes_row (h : m.StackInside) (hsize : m.memory.size < 2 ^ 60) (op : Opcode) (x : Word) :
    ((∃ m', m.apply op x = .ok () m') ↔
      ∀ address, m.address? op x = some address → 0 ≤ address ∧ address < m.memory.size) ∧
    ∀ m', m.apply op x = .ok () m' → m.Realizes m' (m.row op x) ∧
      (op = .swap → m'.ac.toInt = m.sp) ∧
      (Word.Inside m.memory.size x →
        (op = .insp → (m'.sp : Int) = (m.sp + x.toInt) % m.memory.size) ∧
        (op = .desp → (m'.sp : Int) = (m.sp - x.toInt) % m.memory.size)) := by
  refine ⟨exists_apply_eq_ok_iff h hsize, fun m' hok => ?_⟩
  have hrow := realizes_of_apply h hsize hok
  have hlt : m.sp < m.memory.size := h
  refine ⟨hrow, ?_, fun hinside => ⟨?_, ?_⟩⟩
  · intro hop
    subst hop
    exact (congrArg Int64.toInt hrow.ac).trans (toInt_sp h hsize)
  · intro hop
    subst hop
    have hsum := bmod_size_of_inside h hsize hinside (.inl rfl)
    exact hrow.sp.trans (congrArg (· % (m.memory.size : Int)) hsum)
  · intro hop
    subst hop
    have hdifference := bmod_size_of_inside h hsize hinside (.inr rfl)
    exact hrow.sp.trans (congrArg (· % (m.memory.size : Int)) hdifference)

/-- In a memory of four cells, whose last cell is the top of the stack, POPI takes the word of the cell that it sets,
    and DESP runs below cell 0. -/
theorem apply_realizes_row_wrapped : ∃ popped lowered,
    apply .popi 0 { ac := 3, sp := 3, memory := ⟨#[10, 11, 12, 13]⟩ } = .ok () popped ∧
    Realizes { ac := 3, sp := 3, memory := ⟨#[10, 11, 12, 13]⟩ } popped
      { ac := 3, pc := 0, sp := 0, cell := some (3, 13) } ∧
    apply .desp 2 { ac := 3, sp := 1, memory := ⟨#[10, 11, 12, 13]⟩ } = .ok () lowered ∧ (lowered.sp : Int) = 3 := by
  have hpopi := apply_realizes_row (m := { ac := 3, sp := 3, memory := ⟨#[10, 11, 12, 13]⟩ })
    (show 3 < 4 by decide) (by decide) .popi 0
  have hdesp := apply_realizes_row (m := { ac := 3, sp := 1, memory := ⟨#[10, 11, 12, 13]⟩ })
    (show 1 < 4 by decide) (by decide) .desp 2
  obtain ⟨popped, hpopped⟩ := hpopi.1.mpr fun address haddress => by cases haddress; decide
  obtain ⟨lowered, hlowered⟩ := hdesp.1.mpr fun address haddress => by cases haddress
  exact ⟨popped, lowered, hpopped, (hpopi.2 popped hpopped).1, hlowered,
    ((hdesp.2 lowered hlowered).2.2 ⟨by decide, by decide⟩).2 rfl⟩

end Mac1.Machine
