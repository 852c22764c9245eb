import Mathlib.Algebra.Group.Int.Defs
import Mac1.Proofs.Trace.Replay

/-! The machine with a guard before everything that could go wrong in it. A cell that is read or written has to
    exist, a sum or difference of the stack pointer has to be a word, and a remainder is only taken by a divisor
    that is not 0; where a guard is not met the operation breaks off. Otherwise the operations are those of
    `Mac1.Machine.Apply`, and `Refines` says that a guarded operation comes to the same as the plain one. It does
    whenever the stack pointer lies inside a memory of less than 2^60 cells. -/

namespace Mac1.Machine.Guarded

/-- Why a guarded operation ends early: at an address outside of memory, or at a guard that is not met. -/
inductive Stop where
  | outOfBounds (address : Word)
  | broken
  deriving DecidableEq, Repr

abbrev GuardedOp := EStateM Stop Machine

/-! ### Guards -/

/-- Breaks off unless a condition holds. -/
def require (condition : Prop) [Decidable condition] : GuardedOp Unit := fun m =>
  if condition then .ok () m else .error .broken m

/-- An integer as a word, if it is one. -/
def word (value : Int) : GuardedOp Word := do
  require (-2 ^ 63 ≤ value ∧ value < 2 ^ 63)
  return Int64.ofInt value

/-- The remainder of a word, which is not negative. The quotient has to be a word too. -/
def remainder (w divisor : Word) : GuardedOp Word := do
  require (divisor ≠ 0)
  discard (word (w.toInt / divisor.toInt))
  word (w.toInt % divisor.toInt)

/-- The word in a cell, which has to exist. -/
def cell (index : Nat) : GuardedOp Word := fun m =>
  match m.memory.get? index with
  | some value => .ok value m
  | none => .error .broken m

/-- Sets a cell, which has to exist. -/
def setCell (index : Nat) (value : Word) : GuardedOp Unit := fun m =>
  if index < m.memory.size then .ok () { m with memory := m.memory.set index value } else .error .broken m

/-- A micro-operation that needs no guard. -/
def plain {α : Type} (f : MicroOp α) : GuardedOp α := fun m =>
  match f m with
  | .ok a m' => .ok a m'
  | .error (.outOfBounds address) m' => .error (.outOfBounds address) m'
  | .error (.noStackCell _) m' => .error .broken m'

/-! ### Guarded operations

Each is written like the operation of the same name in `Mac1.Machine.MicroOp` or `Mac1.Machine.Apply`. -/

open MicroOp (getAc getPc getSp note setAc setPc check jumpIf)

def moveSp (w : Word) : GuardedOp Unit := do
  let rest ← remainder w (Int64.ofNat (← get).memory.size)
  modify fun m => { m with sp := rest.toInt.toNat }

/-- How far the stack pointer stands from the top of memory. -/
def topOffset : GuardedOp Int := fun m =>
  if m.sp = 0 then .ok 0 m
  else (Int64.toInt <$> word ((Int64.ofNat m.sp).toInt - (Int64.ofNat m.memory.size).toInt)) m

def setSp (w : Word) : GuardedOp Unit := do
  moveSp w
  let offset ← topOffset
  plain (note (.sp offset))

def store (index : Nat) (value : Word) : GuardedOp Unit := do
  setCell index value
  let stored ← cell index
  plain (note (.cell index stored))

def read (address : Word) : GuardedOp Word := do
  cell (← plain (check address))

def push (value : Word) : GuardedOp Unit := do
  setSp (← word ((← plain getSp).toInt - 1))
  store (← get).sp value

def pop : GuardedOp Word := do
  let value ← cell (← get).sp
  setSp (← word ((← plain getSp).toInt + 1))
  return value

/-- Applies an operation. Only the sums and differences that may wrap around are not guarded. -/
def apply (op : Opcode) (x : Word) : GuardedOp Unit :=
  match op with
  | .loco => plain (setAc x)
  | .lodd => do plain (setAc (← read x))
  | .stod => do store (← plain (check x)) (← plain getAc)
  | .addd => do
    let value ← read x
    plain (note (.adding (.cell x) value))
    plain (setAc ((← plain getAc) + value))
  | .subd => do
    let value ← read x
    plain (note (.subtracting (.cell x) value))
    plain (setAc ((← plain getAc) - value))
  | .lodl => do plain (setAc (← read ((← plain getSp) + x)))
  | .stol => do store (← plain (check ((← plain getSp) + x))) (← plain getAc)
  | .addl => do
    let value ← read ((← plain getSp) + x)
    plain (note (.adding (.stack x) value))
    plain (setAc ((← plain getAc) + value))
  | .subl => do
    let value ← read ((← plain getSp) + x)
    plain (note (.subtracting (.stack x) value))
    plain (setAc ((← plain getAc) - value))
  | .push => do push (← plain getAc)
  | .pop => do plain (setAc (← pop))
  | .pshi => do push (← read (← plain getAc))
  | .popi => do
    let index ← plain (check (← plain getAc))
    store index (← pop)
  | .jpos => do plain (jumpIf (0 ≤ (← plain getAc)) x)
  | .jzer => do plain (jumpIf ((← plain getAc) = 0) x)
  | .jneg => do plain (jumpIf ((← plain getAc) < 0) x)
  | .jnze => do plain (jumpIf ((← plain getAc) ≠ 0) x)
  | .jump => plain (jumpIf true x)
  | .call => do
    push (← plain getPc)
    plain (setPc x)
  | .retn => do plain (setPc (← pop))
  | .swap => do
    let value ← plain getAc
    plain (setAc (← plain getSp))
    setSp value
  | .insp => do setSp ((← plain getSp) + x)
  | .desp => do setSp ((← plain getSp) - x)

def storeInitial (address : Nat) (value : Word) : GuardedOp Unit := do
  store (← plain (check (Int64.ofNat address))) value

/-! ### Refinement -/

variable {m : Machine}

section Refinement
variable {α β : Type} {g : GuardedOp α} {f : MicroOp α} {k : α → GuardedOp β} {l : α → MicroOp β}
  {Q : α → Machine → Prop}

/-- The guarded operation comes to the same as the plain one, which finds its stack cells. -/
def Refines (g : GuardedOp α) (f : MicroOp α) (m : Machine) : Prop :=
  match f m with
  | .ok a m' => g m = .ok a m'
  | .error (.outOfBounds address) m' => g m = .error (.outOfBounds address) m'
  | .error (.noStackCell _) _ => False

theorem bind_of_ok {a : α} {m' : Machine} (h : g m = .ok a m') : (g >>= k) m = k a m' := by
  change EStateM.bind g k m = _
  rw [EStateM.bind, h]

theorem bind_of_error {stop : Stop} {m' : Machine} (h : g m = .error stop m') :
    (g >>= k) m = .error stop m' := by
  change EStateM.bind g k m = _
  rw [EStateM.bind, h]

/-- What the plain operation is known to do to the machine may be used for what comes after it. -/
theorem Refines.bind (h : Refines g f m) (hf : MicroOp.Runs f m Q)
    (hnext : ∀ a m', Follows m m' → Q a m' → Refines (k a) (l a) m') : Refines (g >>= k) (f >>= l) m := by
  unfold Refines at h ⊢
  unfold MicroOp.Runs at hf
  cases hfm : f m with
  | ok a m' =>
    rw [hfm] at h hf
    rw [MicroOp.bind_of_ok hfm, bind_of_ok h]
    exact hnext a m' hf.1 hf.2
  | error fault m' =>
    rw [hfm] at h
    rw [MicroOp.bind_of_error hfm]
    cases fault with
    | outOfBounds address => exact bind_of_error h
    | noStackCell sp => exact h

/-- The guards may look at the machine first. -/
theorem Refines.of_ok_bind {f : MicroOp β} {a : α} (hg : g m = .ok a m) (h : Refines (k a) f m) :
    Refines (g >>= k) f m := by
  unfold Refines at h ⊢
  rw [bind_of_ok hg]
  exact h

theorem refines_getAc_bind {k : Word → GuardedOp β} {l : Word → MicroOp β} (h : Refines (k m.ac) (l m.ac) m) :
    Refines (plain getAc >>= k) (getAc >>= l) m := h

theorem refines_getPc_bind {k : Word → GuardedOp β} {l : Word → MicroOp β} (h : Refines (k m.pc) (l m.pc) m) :
    Refines (plain getPc >>= k) (getPc >>= l) m := h

theorem refines_getSp_bind {k : Word → GuardedOp β} {l : Word → MicroOp β}
    (h : Refines (k (Int64.ofNat m.sp)) (l (Int64.ofNat m.sp)) m) : Refines (plain getSp >>= k) (getSp >>= l) m := h

theorem refines_setAc (value : Word) : Refines (plain (setAc value)) (setAc value) m := rfl

theorem refines_setPc (value : Word) : Refines (plain (setPc value)) (setPc value) m := rfl

theorem refines_jumpIf (condition : Bool) (target : Word) :
    Refines (plain (jumpIf condition target)) (jumpIf condition target) m := by
  cases condition <;> rfl

theorem refines_check (address : Word) : Refines (plain (check address)) (check address) m := by
  unfold Refines plain check Memory.check
  cases Word.index? m.memory.size address <;> rfl

theorem refines_store {index : Nat} (hindex : index < m.memory.size) (value : Word) :
    Refines (store index value) (MicroOp.store index value) m := by
  have hset : setCell index value m = .ok () { m with memory := m.memory.set index value } := if_pos hindex
  have hcell : cell index { m with memory := m.memory.set index value } =
      .ok value { m with memory := m.memory.set index value } := by
    rw [cell, Memory.get?_set, if_pos ⟨rfl, hindex⟩]
  change store index value m = _
  rw [store, bind_of_ok hset, bind_of_ok hcell]
  rfl

theorem refines_read (address : Word) : Refines (read address) (MicroOp.read address) m := by
  unfold Refines MicroOp.read Memory.read
  cases hindex : Word.index? m.memory.size address with
  | none =>
    have hcheck : plain (check address) m = .error (.outOfBounds address) m := by
      simp only [plain, check, Memory.check, hindex]
    exact bind_of_error hcheck
  | some index =>
    have hcheck : plain (check address) m = .ok index m := by
      simp only [plain, check, Memory.check, hindex]
    have hlt : index < m.memory.cells.size := (Word.index?_eq_some_iff.mp hindex).2
    change (plain (check address) >>= cell) m = _
    rw [bind_of_ok hcheck]
    simp [cell, Memory.get?, hlt]

theorem refines_top (h : m.StackInside) : Refines (cell m.sp) MicroOp.top m := by
  have hlt : m.sp < m.memory.cells.size := h
  have htop : m.memory.get? m.sp = some m.memory.cells[m.sp] := by simp [Memory.get?]
  unfold Refines MicroOp.top cell
  rw [htop]

end Refinement

/-! ### No guard fails -/

section Inside
variable (h : m.StackInside) (hsize : m.memory.size < 2 ^ 60)

theorem word_of_fits {value : Int} (hlow : -2 ^ 63 ≤ value) (hhigh : value < 2 ^ 63) :
    word value m = .ok (Int64.ofInt value) m := by
  rw [word, bind_of_ok (if_pos ⟨hlow, hhigh⟩)]
  rfl

theorem word_add_one {n : Nat} (hn : n < 2 ^ 60) : word ((Int64.ofNat n).toInt + 1) m = .ok (Int64.ofNat n + 1) m := by
  have hvalue : (Int64.ofNat n).toInt = n := Int64.toInt_ofNat_of_lt (by omega)
  rw [word_of_fits (by omega) (by omega), Int64.ofInt_add, Int64.ofInt_toInt]
  rfl

theorem word_sub_one {n : Nat} (hn : n < 2 ^ 60) : word ((Int64.ofNat n).toInt - 1) m = .ok (Int64.ofNat n - 1) m := by
  have hvalue : (Int64.ofNat n).toInt = n := Int64.toInt_ofNat_of_lt (by omega)
  rw [word_of_fits (by omega) (by omega), Int64.ofInt_sub, Int64.ofInt_toInt]
  rfl

/-- The quotient of a word by a positive number lies between the word and 0. -/
theorem word_ediv (w : Word) {n : Int} (hn : 0 < n) :
    word (w.toInt / n) m = .ok (Int64.ofInt (w.toInt / n)) m := by
  have hlow := w.le_toInt
  have hhigh := w.toInt_lt
  rcases Int.le_total 0 w.toInt with hw | hw
  · have := Int.ediv_le_self n hw
    have := Int.ediv_nonneg hw (Int.le_of_lt hn)
    exact word_of_fits (by omega) (by omega)
  · -- only the least word by -1 has a quotient that is no word, and the divisor is positive
    have hmul : w.toInt * n ≤ w.toInt * 1 := Int.mul_le_mul_of_nonpos_left hw hn
    have := Int.le_ediv_of_mul_le hn (Int.mul_one w.toInt ▸ hmul)
    have hzero := Int.ediv_le_ediv hn hw
    rw [Int.zero_ediv] at hzero
    exact word_of_fits (by omega) (by omega)

include h hsize

theorem remainder_size (w : Word) :
    remainder w (Int64.ofNat m.memory.size) m = .ok (Int64.ofInt (w.toInt % m.memory.size)) m := by
  have hinside : m.sp < m.memory.size := h
  have hpos : (0 : Int) < m.memory.size := by omega
  have hvalue : (Int64.ofNat m.memory.size).toInt = m.memory.size := Int64.toInt_ofNat_of_lt (by omega)
  have hne : Int64.ofNat m.memory.size ≠ 0 := by
    intro hzero
    rw [hzero, Int64.toInt_zero] at hvalue
    omega
  have hquotient : discard (word (w.toInt / (m.memory.size : Int))) m = .ok () m := by
    change EStateM.map _ (word _) m = _
    rw [EStateM.map, word_ediv w hpos]
  have := Int.emod_nonneg w.toInt (Int.ne_of_gt hpos)
  have := Int.emod_lt_of_pos w.toInt hpos
  rw [remainder, bind_of_ok (if_pos hne), hvalue, bind_of_ok hquotient]
  exact word_of_fits (by omega) (by omega)

theorem moveSp_eq (w : Word) : moveSp w m = .ok () (m.moveSp w) := by
  have hinside : m.sp < m.memory.size := h
  have := Int.emod_nonneg w.toInt (b := m.memory.size) (by omega)
  have := Int.emod_lt_of_pos w.toInt (b := m.memory.size) (by omega)
  have hvalue : (Int64.ofInt (w.toInt % m.memory.size)).toInt = w.toInt % m.memory.size :=
    Int64.toInt_ofInt_of_le (by omega) (by omega)
  have hget : (get : GuardedOp Machine) m = .ok m m := rfl
  rw [moveSp, bind_of_ok hget, bind_of_ok (remainder_size h hsize w), hvalue]
  rfl

theorem topOffset_eq : topOffset m = .ok (if m.sp = 0 then 0 else m.sp - m.memory.size) m := by
  have hinside : m.sp < m.memory.size := h
  have hsp : (Int64.ofNat m.sp).toInt = m.sp := Int64.toInt_ofNat_of_lt (by omega)
  have hmemory : (Int64.ofNat m.memory.size).toInt = m.memory.size := Int64.toInt_ofNat_of_lt (by omega)
  rw [topOffset]
  split
  · rfl
  · change EStateM.map _ (word _) m = _
    rw [EStateM.map, hsp, hmemory, word_of_fits (by omega) (by omega)]
    dsimp only
    rw [Int64.toInt_ofInt_of_le (by omega) (by omega)]

theorem refines_setSp (w : Word) : Refines (setSp w) (MicroOp.setSp w) m := by
  have hinside : (m.moveSp w).StackInside := stackInside_moveSp (Nat.lt_of_le_of_lt (Nat.zero_le _) h) w
  change setSp w m = _
  rw [setSp, bind_of_ok (moveSp_eq h hsize w), bind_of_ok (topOffset_eq hinside hsize)]
  rfl

theorem refines_push (value : Word) : Refines (push value) (MicroOp.push value) m := by
  have hinside : m.sp < m.memory.size := h
  -- the stack pointer is far from the least word, so one less is a word too
  refine refines_getSp_bind (Refines.of_ok_bind (word_sub_one (by omega)) ?_)
  refine (refines_setSp h hsize _).bind (MicroOp.runs_setSp h _) fun _ m' hm' _ => ?_
  have hlt : m'.sp < m'.memory.size := hm'.inside
  have hset : MicroOp.setTop value m' = MicroOp.store m'.sp value m' := if_pos hlt
  refine Refines.of_ok_bind (a := m') rfl ?_
  unfold Refines
  rw [hset]
  exact refines_store hlt value

theorem refines_pop : Refines pop MicroOp.pop m := by
  have hinside : m.sp < m.memory.size := h
  refine Refines.of_ok_bind (a := m) rfl ((refines_top h).bind (MicroOp.runs_top h) fun value m' _ hm' => ?_)
  subst hm'
  refine refines_getSp_bind (Refines.of_ok_bind (word_add_one (by omega)) ?_)
  refine (refines_setSp h hsize _).bind (MicroOp.runs_setSp h _) fun _ m'' _ _ => ?_
  rfl

end Inside

/-! ### Operations -/

/-- A sum or difference reads its operand, notes it and sets the accumulator. -/
theorem refines_combine (h : m.StackInside) (address : Word) (entry : Word → Mutation) (combine : Word → Word → Word) :
    Refines
      (do
        let value ← read address
        plain (note (entry value))
        plain (setAc (combine (← plain getAc) value)))
      (do
        let value ← MicroOp.read address
        note (entry value)
        setAc (combine (← getAc) value)) m := by
  refine (refines_read address).bind (MicroOp.runs_read h address) fun value m' _ _ => ?_
  rfl

theorem refines_apply (h : m.StackInside) (hsize : m.memory.size < 2 ^ 60) (op : Opcode) (x : Word) :
    Refines (apply op x) (Machine.apply op x) m := by
  have load (address : Word) :
      Refines (read address >>= fun value => plain (setAc value)) (MicroOp.read address >>= setAc) m :=
    (refines_read address).bind (MicroOp.runs_read h address) fun value m' _ _ => refines_setAc value
  have save (address : Word) :
      Refines (plain (check address) >>= fun index => plain getAc >>= store index)
        (check address >>= fun index => getAc >>= MicroOp.store index) m := by
    refine (refines_check address).bind (MicroOp.runs_check h address) fun index m' _ hm' => ?_
    exact refines_getAc_bind (refines_store (hm'.1 ▸ hm'.2) _)
  cases op with
  | loco => exact refines_setAc x
  | lodd => exact load x
  | stod => exact save x
  | addd => exact refines_combine h x _ (· + ·)
  | subd => exact refines_combine h x _ (· - ·)
  | lodl => exact refines_getSp_bind (load _)
  | stol => exact refines_getSp_bind (save _)
  | addl => exact refines_getSp_bind (refines_combine h _ _ (· + ·))
  | subl => exact refines_getSp_bind (refines_combine h _ _ (· - ·))
  | push => exact refines_getAc_bind (refines_push h hsize _)
  | pop =>
    exact (refines_pop h hsize).bind (MicroOp.runs_pop h) fun value m' _ _ => refines_setAc value
  | pshi =>
    refine refines_getAc_bind ((refines_read _).bind (MicroOp.runs_read h _) fun value m' hm' hsame => ?_)
    obtain ⟨rfl, -⟩ := hsame
    exact refines_push h hsize value
  | popi =>
    refine refines_getAc_bind ((refines_check _).bind (MicroOp.runs_check h _) fun index m' _ hindex => ?_)
    obtain ⟨rfl, hindex⟩ := hindex
    -- the cell is checked before the stack pointer moves, and memory keeps its size
    refine (refines_pop h hsize).bind (MicroOp.runs_pop h) fun value m'' hm'' _ => ?_
    exact refines_store (hm''.size ▸ hindex) value
  | jpos => exact refines_getAc_bind (refines_jumpIf _ x)
  | jzer => exact refines_getAc_bind (refines_jumpIf _ x)
  | jneg => exact refines_getAc_bind (refines_jumpIf _ x)
  | jnze => exact refines_getAc_bind (refines_jumpIf _ x)
  | jump => exact refines_jumpIf true x
  | call =>
    exact refines_getPc_bind ((refines_push h hsize _).bind (MicroOp.runs_push h _) fun _ m' _ _ => refines_setPc x)
  | retn =>
    exact (refines_pop h hsize).bind (MicroOp.runs_pop h) fun value m' _ _ => refines_setPc value
  | swap =>
    refine refines_getAc_bind (refines_getSp_bind ((refines_setAc _).bind (MicroOp.runs_setAc h _) ?_))
    intro _ m' hm' _
    exact refines_setSp hm'.inside (hm'.size ▸ hsize) _
  | insp => exact refines_getSp_bind (refines_setSp h hsize _)
  | desp => exact refines_getSp_bind (refines_setSp h hsize _)

theorem refines_storeInitial (h : m.StackInside) (address : Nat) (value : Word) :
    Refines (storeInitial address value) (Machine.storeInitial address value) m := by
  refine (refines_check _).bind (MicroOp.runs_check h _) fun index m' _ hm' => ?_
  exact refines_store (hm'.1 ▸ hm'.2) value

end Mac1.Machine.Guarded
