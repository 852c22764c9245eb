import Mac1.Proofs.Execution.Invariant
import Mac1.Proofs.Machine.InstructionTable
import Mathlib.Algebra.Ring.Int.Defs
import Mathlib.Data.List.Induction
import Mathlib.Data.List.Infix

/-! The stack as a list. The stack runs in a circle through memory, so up to a depth of the memory size it is a list, from
    which the word that was put on it last is taken first. Other operations must leave memory and the stack pointer
    alone. What is said here of the end of a sequence of operations holds at every point of it, since the operations up
    to there are a sequence as well. -/

namespace Mac1

/-- The operation neither moves the stack pointer nor sets a cell, but to put a word on the stack or to take one to a
    register. -/
def Opcode.orderly : Opcode → Bool
  | .stod | .stol | .popi | .swap | .insp | .desp => false
  | _ => true

namespace Machine

/-! ### Lists of words -/

/-- What an operation makes of the stack. -/
inductive Motion where
  | stores (value : Word)
  | takes (value : Word)
  | keeps
  deriving DecidableEq, Repr

namespace Motion

/-- The change of the depth. -/
def rise : Motion → Int
  | .stores _ => 1
  | .takes _ => -1
  | .keeps => 0

/-- What becomes of a list of words, whose first word is the top of the stack. -/
def moveList (words : List Word) : Motion → List Word
  | .stores value => value :: words
  | .takes _ => words.tail
  | .keeps => words

/-- The number of words stored less that of words taken. -/
def depth (motions : List Motion) : Int := (motions.map rise).sum

/-- The words on the stack. -/
def lifo (motions : List Motion) : List Word := motions.foldl moveList []

/-- The depth never leaves the range from 0 to a limit. -/
def StaysWithin (limit : Int) (motions : List Motion) : Prop :=
  ∀ front, front <+: motions → 0 ≤ depth front ∧ depth front ≤ limit

/-- No word is taken that was not stored, and all are taken that were. -/
structure Balanced (motions : List Motion) : Prop where
  nonneg : ∀ front, front <+: motions → 0 ≤ depth front
  level : depth motions = 0

/-- Storing and taking match like brackets: every word that is taken was stored before a balanced sequence, and what was
    stored before a balanced sequence is taken after it. -/
structure Paired (motions : List Motion) : Prop where
  stored : ∀ front w rest, motions = front ++ .takes w :: rest →
    ∃ before inner, front = before ++ .stores w :: inner ∧ Balanced inner
  same : ∀ before v inner w rest, motions = before ++ .stores v :: (inner ++ .takes w :: rest) → Balanced inner →
    v = w

/-- Every word that is taken was the top of the list. -/
def TakesTop (motions : List Motion) : Prop :=
  ∀ front w rest, motions = front ++ .takes w :: rest → (lifo front).head? = some w

instance (limit : Int) (motions : List Motion) : Decidable (StaysWithin limit motions) :=
  decidable_of_iff (∀ front ∈ motions.inits, 0 ≤ depth front ∧ depth front ≤ limit) (by simp [StaysWithin])

variable {motions inner : List Motion}

@[simp] theorem depth_nil : depth [] = 0 := rfl

@[simp] theorem depth_append (front rest : List Motion) : depth (front ++ rest) = depth front + depth rest := by
  simp [depth]

@[simp] theorem depth_cons (motion : Motion) (rest : List Motion) :
    depth (motion :: rest) = motion.rise + depth rest := by
  simp [depth]

theorem lifo_concat (motions : List Motion) (motion : Motion) :
    lifo (motions ++ [motion]) = motion.moveList (lifo motions) := by
  simp [lifo]

theorem StaysWithin.balanced {limit : Int} (h : StaysWithin limit motions) (hlevel : depth motions = 0) :
    Balanced motions := ⟨fun front hfront => (h front hfront).1, hlevel⟩

/-- A word is stored first and taken last, with a balanced sequence in between. -/
theorem Balanced.enclosed {limit : Int} (h : Balanced inner) (v w : Word) (hstays : StaysWithin (limit - 1) inner) :
    depth (.stores v :: (inner ++ [.takes w])) = 0 ∧ StaysWithin limit (.stores v :: (inner ++ [.takes w])) := by
  have hlevel : depth (.stores v :: (inner ++ [.takes w])) = 0 := by simp [h.level, rise]
  have hlimit := (hstays [] List.nil_prefix).2
  rw [depth_nil] at hlimit
  refine ⟨hlevel, fun front hfront => ?_⟩
  rcases List.prefix_cons_iff.mp hfront with rfl | ⟨rest, rfl, hrest⟩
  · rw [depth_nil]
    omega
  · rcases List.prefix_concat_iff.mp hrest with rfl | hrest
    · rw [hlevel]
      omega
    · have hdepth := hstays rest hrest
      rw [depth_cons, rise]
      omega

theorem StaysWithin.of_prefix {limit : Int} {front : List Motion} (h : StaysWithin limit motions)
    (hfront : front <+: motions) : StaysWithin limit front := fun _ hshorter => h _ (hshorter.trans hfront)

/-- Nothing below the words that a sequence stores is touched, as long as it takes no more than it stores. -/
theorem foldl_moveList (words : List Word) (h : ∀ front, front <+: inner → 0 ≤ depth front) :
    inner.foldl moveList words = lifo inner ++ words ∧ ((lifo inner).length : Int) = depth inner := by
  induction inner using List.reverseRecOn with
  | nil => exact ⟨rfl, rfl⟩
  | append_singleton inner motion ih =>
    obtain ⟨hwords, hlength⟩ := ih fun front hfront => h front (hfront.trans (List.prefix_append _ _))
    have hdepth := h _ List.prefix_rfl
    rw [depth_append, depth_cons, depth_nil, Int.add_zero] at hdepth ⊢
    rw [List.foldl_append, hwords, lifo_concat, List.foldl_cons, List.foldl_nil]
    cases motion with
    | stores value => exact ⟨rfl, by simp [moveList, rise, hlength]⟩
    | takes value =>
      -- there is a word to take
      cases hlifo : lifo inner with
      | nil =>
        rw [hlifo] at hlength
        simp only [rise, List.length_nil] at hlength hdepth
        omega
      | cons top rest =>
        rw [hlifo] at hlength
        refine ⟨rfl, ?_⟩
        simp only [moveList, rise, List.tail_cons, List.length_cons] at hlength ⊢
        omega
    | keeps => exact ⟨rfl, by simp [moveList, rise, hlength]⟩

theorem length_lifo {limit : Int} (h : StaysWithin limit motions) : ((lifo motions).length : Int) = depth motions :=
  (foldl_moveList [] fun front hfront => (h front hfront).1).2

theorem lifo_append_balanced (before : List Motion) (h : Balanced inner) : lifo (before ++ inner) = lifo before := by
  obtain ⟨hwords, hlength⟩ := foldl_moveList (lifo before) h.nonneg
  have hempty : lifo inner = [] := List.eq_nil_of_length_eq_zero (by rw [h.level] at hlength; omega)
  rw [lifo, List.foldl_append, ← lifo, hwords, hempty, List.nil_append]

theorem lifo_stores_balanced (before : List Motion) (value : Word) (h : Balanced inner) :
    lifo (before ++ .stores value :: inner) = value :: lifo before := by
  rw [← List.singleton_append, ← List.append_assoc, lifo_append_balanced _ h, lifo_concat]
  rfl

/-- A depth that is reached was reached for the last time by storing a word. -/
theorem exists_last_rise {d : Int} (hlow : 0 < d) (hhigh : d ≤ depth motions) :
    ∃ before value inner, motions = before ++ .stores value :: inner ∧ depth before = d - 1 ∧
      ∀ front, front <+: inner → 0 ≤ depth front := by
  induction motions using List.reverseRecOn with
  | nil =>
    rw [depth_nil] at hhigh
    omega
  | append_singleton motions motion ih =>
    by_cases hearlier : d ≤ depth motions
    · obtain ⟨before, value, inner, rfl, hbefore, hinner⟩ := ih hearlier
      refine ⟨before, value, inner ++ [motion], by simp, hbefore, fun front hfront => ?_⟩
      rcases List.prefix_concat_iff.mp hfront with rfl | hfront
      · simp only [depth_append, depth_cons, depth_nil, rise] at hhigh ⊢
        omega
      · exact hinner front hfront
    · rw [depth_append, depth_cons, depth_nil] at hhigh
      cases motion with
      | stores value =>
        simp only [rise] at hhigh
        exact ⟨motions, value, [], rfl, by omega, fun front hfront => by simp [List.prefix_nil.mp hfront]⟩
      | takes value =>
        simp only [rise] at hhigh
        omega
      | keeps =>
        simp only [rise] at hhigh
        omega

theorem exists_stores_balanced (h : 0 < depth motions) :
    ∃ before value inner, motions = before ++ .stores value :: inner ∧ Balanced inner := by
  obtain ⟨before, value, inner, rfl, hbefore, hinner⟩ := exists_last_rise h (Int.le_refl _)
  refine ⟨before, value, inner, rfl, hinner, ?_⟩
  simp only [depth_append, depth_cons, rise] at hbefore
  omega

theorem TakesTop.paired {limit : Int} (htop : TakesTop motions) (h : StaysWithin limit motions) : Paired motions where
  stored front w rest hmotions := by
    have hlevel := (h (front ++ [.takes w]) ⟨rest, by simp [hmotions]⟩).1
    rw [depth_append, depth_cons, depth_nil, rise] at hlevel
    have hdepth : 0 < depth front := by omega
    obtain ⟨before, value, inner, rfl, hinner⟩ := exists_stores_balanced hdepth
    have hw := htop _ w rest hmotions
    rw [lifo_stores_balanced before value hinner] at hw
    cases hw
    exact ⟨before, inner, rfl, hinner⟩
  same before v inner w rest hmotions hinner := by
    have hw := htop (before ++ .stores v :: inner) w rest (by simp [hmotions])
    rw [lifo_stores_balanced before v hinner] at hw
    exact Option.some.inj hw

end Motion
open Motion

/-! ### One operation -/

/-- What applying an operation makes of the stack. One that fails keeps it. -/
def motion (m : Machine) (op : Opcode) (x : Word) : Motion :=
  match m.apply op x with
  | .error _ _ => .keeps
  | .ok _ m' =>
    match op with
    | .push => .stores m.ac
    | .pshi => .stores (m.wordAt m.ac.toInt)
    | .call => .stores m.pc
    | .pop => .takes m'.ac
    | .retn => .takes m'.pc
    | _ => .keeps

/-- The stack pointer moves with the depth, a word that is stored is on the top of the stack after that, and one that is
    taken was on the top before; no other cell changes. -/
structure Moved (m m' : Machine) (motion : Motion) : Prop where
  size : m'.memory.size = m.memory.size
  sp : (m'.sp : Int) = (m.sp - motion.rise) % m.memory.size
  stored : ∀ v, motion = .stores v → m'.memory.get? m'.sp = some v
  taken : ∀ w, motion = .takes w → m.memory.get? m.sp = some w
  frame : ∀ i, (∀ v, motion = .stores v → i ≠ m'.sp) → m'.memory.get? i = m.memory.get? i

section Operations
variable {m m' : Machine}

theorem stackInside_of_sp (h : m.StackInside) (hsize : m'.memory.size = m.memory.size) {sp : Int}
    (hsp : (m'.sp : Int) = sp % m.memory.size) : m'.StackInside := by
  have hlt : m.sp < m.memory.size := h
  have hmod := Int.emod_lt_of_pos sp (show (0 : Int) < m.memory.size by omega)
  rw [← hsp] at hmod
  rw [StackInside, hsize]
  omega

theorem Moved.kept {motion : Motion} (h : m.StackInside) (hmoved : m.Moved m' motion) : m.Kept m' :=
  ⟨hmoved.size, stackInside_of_sp h hmoved.size hmoved.sp⟩

theorem get?_sp (h : m.StackInside) : m.memory.get? m.sp = some (m.wordAt m.sp) := by
  have hlt : m.sp < m.memory.cells.size := h
  simp [wordAt, Memory.get?, hlt]

/-- An operation that sets no cell. -/
theorem Realizes.moved_of_registers {row : Row} {motion : Motion} (hrow : m.Realizes m' row) (hcell : row.cell = none)
    (hsp : row.sp = (m.sp - motion.rise) % m.memory.size) (hstores : ∀ v, motion ≠ .stores v)
    (htaken : ∀ w, motion = .takes w → m.memory.get? m.sp = some w) : m.Moved m' motion where
  size := hrow.size
  sp := hrow.sp.trans hsp
  stored v hv := absurd hv (hstores v)
  taken := htaken
  frame i _ := hrow.frame i fun _ _ hset => by rw [hcell] at hset; cases hset

section Rows
variable {row : Row} (h : m.StackInside) (hrow : m.Realizes m' row)
include h hrow

theorem Realizes.moved_stores {value : Word} (hsp : row.sp = m.below)
    (hcell : row.cell = some ((m.below : Int), value)) : m.Moved m' (.stores value) := by
  have hbelow : m'.sp = m.below := Int.ofNat_inj.mp (hrow.sp.trans hsp)
  constructor
  case size => exact hrow.size
  case sp => rw [hbelow, below_eq h, rise]
  case stored =>
    intro v hv
    cases hv
    rw [hbelow]
    exact (hrow.cell _ _ hcell).2
  case taken =>
    intro w hw
    cases hw
  case frame =>
    intro i hi
    refine hrow.frame i fun address v hset => ?_
    have hne := hi value rfl
    rw [hcell] at hset
    cases hset
    omega

theorem Realizes.moved_takes (hsp : row.sp = m.above) (hcell : row.cell = none) :
    m.Moved m' (.takes (m.wordAt m.sp)) := by
  refine hrow.moved_of_registers hcell ?_ (fun v hv => by cases hv) fun w hw => ?_
  · rw [hsp, above_eq h, rise, Int.sub_neg]
  · cases hw
    exact get?_sp h

theorem Realizes.moved_keeps (hsp : row.sp = m.sp) (hcell : row.cell = none) : m.Moved m' .keeps := by
  have hlt : m.sp < m.memory.size := h
  refine hrow.moved_of_registers hcell ?_ (fun v hv => by cases hv) fun w hw => by cases hw
  rw [hsp, rise, Int.sub_zero, Int.emod_eq_of_lt (by omega) (by omega)]

end Rows

theorem moved_of_apply (h : m.StackInside) (hsize : m.memory.size < 2 ^ 60) {op : Opcode} (hop : op.orderly = true)
    (x : Word) : m.Moved (after (m.apply op x)) (m.motion op x) := by
  cases hresult : m.apply op x with
  | error fault m' =>
    obtain ⟨address, -, -, -, rfl⟩ := (apply_eq_error_iff h).mp hresult
    rw [motion, hresult]
    exact (Realizes.of_registers m'.ac m'.pc m'.sp m'.log).moved_keeps h rfl rfl
  | ok _ m' =>
    have hrow := realizes_of_apply h hsize hresult
    rw [motion, hresult]
    cases op with
    | push | pshi | call => exact hrow.moved_stores h rfl rfl
    | pop =>
      have hmoved := hrow.moved_takes h rfl rfl
      rwa [← show m'.ac = m.wordAt m.sp from hrow.ac] at hmoved
    | retn =>
      have hmoved := hrow.moved_takes h rfl rfl
      rwa [← show m'.pc = m.wordAt m.sp from hrow.pc] at hmoved
    | stod | stol | popi | swap | insp | desp => cases hop
    | loco | lodd | addd | subd | lodl | addl | subl | jump => exact hrow.moved_keeps h rfl rfl
    | jpos | jzer | jneg | jnze =>
      refine hrow.moved_keeps h ?_ ?_
      · simp only [row]; split <;> rfl
      · simp only [row]; split <;> rfl

end Operations

/-! ### Sequences of operations -/

/-- Operations are applied one after the other. In between, registers other than the stack pointer may be set. -/
inductive Applies (m : Machine) : List Motion → Machine → Prop where
  | nil : Applies m [] m
  | set {motions : List Motion} {m₁ m₂ : Machine} (h : Applies m motions m₁) (sp : m₂.sp = m₁.sp)
    (memory : m₂.memory = m₁.memory) : Applies m motions m₂
  | apply {motions : List Motion} {m₁ : Machine} (h : Applies m motions m₁) {op : Opcode} (hop : op.orderly = true)
    (x : Word) : Applies m (motions ++ [m₁.motion op x]) (after (m₁.apply op x))

/-- What a list of operations makes of the stack, one after the other. -/
def motionsOf (m : Machine) : List (Opcode × Word) → List Motion
  | [] => []
  | (op, x) :: operations => m.motion op x :: motionsOf (after (m.apply op x)) operations

/-- The machine after a list of operations, some of which may have failed. -/
def applyAll (m : Machine) (operations : List (Opcode × Word)) : Machine :=
  operations.foldl (fun m operation => after (m.apply operation.1 operation.2)) m

theorem Applies.append {m m' : Machine} {motions : List Motion} (operations : List (Opcode × Word))
    (h : Applies m motions m') (horderly : ∀ operation ∈ operations, operation.1.orderly = true) :
    Applies m (motions ++ m'.motionsOf operations) (m'.applyAll operations) := by
  induction operations generalizing motions m' with
  | nil =>
    rw [motionsOf, List.append_nil]
    exact h
  | cons operation operations ih =>
    have hrest := ih (h.apply (horderly _ List.mem_cons_self) operation.2) fun o ho =>
      horderly o (List.mem_cons_of_mem _ ho)
    rw [List.append_assoc] at hrest
    exact hrest

/-! ### Cells -/

/-- The address of the cell that is so many cells below the stack pointer, in the circle. -/
def slot (m : Machine) (distance : Int) : Int := (m.sp - distance) % m.memory.size

/-- After a sequence, the machine holds the words of the list in the cells from the stack pointer upward, and only cells
    that the stack has reached may have changed. -/
structure Holds (m : Machine) (limit : Int) (motions : List Motion) (m' : Machine) : Prop where
  size : m'.memory.size = m.memory.size
  sp : (m'.sp : Int) = m.slot (depth motions)
  length : ((lifo motions).length : Int) = depth motions
  words : ∀ (t : Nat) (v : Word), (lifo motions)[t]? = some v →
    m'.memory.get? (m.slot (depth motions - t)).toNat = some v
  frame : ∀ i : Nat, (∀ distance : Int, 1 ≤ distance → distance ≤ limit → (i : Int) ≠ m.slot distance) →
    m'.memory.get? i = m.memory.get? i

section Sequences
variable {m m' m'' : Machine} {motions : List Motion} {limit : Int}

theorem slot_nonneg (h : m.StackInside) (distance : Int) : 0 ≤ m.slot distance := by
  have hlt : m.sp < m.memory.size := h
  exact Int.emod_nonneg _ (by omega)

theorem slot_zero (h : m.StackInside) : m.slot 0 = m.sp := by
  have hlt : m.sp < m.memory.size := h
  rw [slot, Int.sub_zero, Int.emod_eq_of_lt (by omega) (by omega)]

/-- As many cells as memory has, one below the other, are different cells. -/
theorem slot_ne {d d' : Int} (hlow : d' < d) (hhigh : d < d' + m.memory.size) : m.slot d ≠ m.slot d' := by
  intro hsame
  have hdvd := Int.emod_eq_emod_iff_emod_sub_eq_zero.mp hsame.symm
  rw [show (m.sp : Int) - d' - (m.sp - d) = d - d' by omega, Int.emod_eq_of_lt (by omega) (by omega)] at hdvd
  omega

theorem emod_slot_sub (d d' : Int) : (m.slot d - d') % m.memory.size = m.slot (d + d') := by
  rw [slot, slot, Int.emod_sub_emod, Int.sub_sub]

theorem Holds.stackInside (h : m.StackInside) (hholds : m.Holds limit motions m') : m'.StackInside :=
  stackInside_of_sp h hholds.size hholds.sp

theorem holds_nil (h : m.StackInside) : m.Holds limit [] m where
  size := rfl
  sp := (slot_zero h).symm
  length := rfl
  words t v hv := by cases hv
  frame _ _ := rfl

theorem Holds.set (hholds : m.Holds limit motions m') (hsp : m''.sp = m'.sp) (hmemory : m''.memory = m'.memory) :
    m.Holds limit motions m'' where
  size := by rw [hmemory, hholds.size]
  sp := by rw [hsp, hholds.sp]
  length := hholds.length
  words := by rw [hmemory]; exact hholds.words
  frame := by rw [hmemory]; exact hholds.frame

/-- The words above a new one stay where they are, up to a full memory. -/
theorem Holds.words_stores {m₁ m₂ : Machine} (h : m.StackInside) (hholds : m.Holds limit motions m₁) {value : Word}
    (hmoved : m₁.Moved m₂ (.stores value)) (hsp : (m₂.sp : Int) = m.slot (depth motions + 1))
    (hhigh : depth motions + 1 ≤ m.memory.size) (t : Nat) (v : Word) (hv : (value :: lifo motions)[t]? = some v) :
    m₂.memory.get? (m.slot (depth motions + 1 - t)).toNat = some v := by
  cases t with
  | zero =>
    cases hv
    have hstored := hmoved.stored value rfl
    rw [← Int.toNat_natCast m₂.sp, hsp] at hstored
    rwa [Int.natCast_zero, Int.sub_zero]
  | succ t =>
    rw [List.getElem?_cons_succ] at hv
    obtain ⟨ht, -⟩ := List.getElem?_eq_some_iff.mp hv
    have hlength := hholds.length
    have hslot : depth motions + 1 - ((t + 1 : Nat) : Int) = depth motions - t := by omega
    have hnonneg := slot_nonneg h (depth motions - t)
    have hother : m.slot (depth motions + 1) ≠ m.slot (depth motions - t) := slot_ne (by omega) (by omega)
    rw [hslot, hmoved.frame _ fun _ _ => by omega]
    exact hholds.words t v hv

theorem Holds.head?_takes {m₁ m₂ : Machine} (hholds : m.Holds limit motions m₁) {w : Word}
    (hmoved : m₁.Moved m₂ (.takes w)) (hdepth : 0 < depth motions) : (lifo motions).head? = some w := by
  have hlength := hholds.length
  have htaken := hmoved.taken w rfl
  cases hlifo : lifo motions with
  | nil =>
    rw [hlifo, List.length_nil] at hlength
    omega
  | cons top rest =>
    have htop := hholds.words 0 top (by rw [hlifo]; rfl)
    rw [Int.natCast_zero, Int.sub_zero, ← hholds.sp, Int.toNat_natCast, htaken] at htop
    exact htop.symm

theorem Holds.apply {m₁ m₂ : Machine} {motion : Motion} (h : m.StackInside) (hholds : m.Holds limit motions m₁)
    (hmoved : m₁.Moved m₂ motion) (hlimit : limit ≤ m.memory.size) (hstays : StaysWithin limit (motions ++ [motion])) :
    m.Holds limit (motions ++ [motion]) m₂ := by
  have hdepth : depth (motions ++ [motion]) = depth motions + motion.rise := by simp
  have hbounds := hstays _ List.prefix_rfl
  have hbefore := hstays motions (List.prefix_append _ _)
  have hsp : (m₂.sp : Int) = m.slot (depth (motions ++ [motion])) := by
    rw [hmoved.sp, hholds.sp, hholds.size, emod_slot_sub, hdepth, ← emod_slot_sub]
  constructor
  case size => rw [hmoved.size, hholds.size]
  case sp => exact hsp
  case length => exact length_lifo hstays
  case words =>
    intro t v hv
    rw [lifo_concat] at hv
    rw [hdepth] at hsp hbounds ⊢
    cases motion with
    | stores value => exact hholds.words_stores h hmoved hsp (by simp only [rise] at hbounds; omega) t v hv
    | takes w =>
      rw [moveList, List.getElem?_tail] at hv
      have hslot : depth motions + rise (.takes w) - (t : Int) = depth motions - ((t + 1 : Nat) : Int) := by
        simp only [rise]
        omega
      rw [hslot, hmoved.frame _ fun v hstores => by cases hstores]
      exact hholds.words (t + 1) v hv
    | keeps =>
      rw [rise, Int.add_zero, hmoved.frame _ fun v hstores => by cases hstores]
      exact hholds.words t v hv
  case frame =>
    intro i hi
    refine (hmoved.frame i fun value hstores => ?_).trans (hholds.frame i hi)
    rw [hdepth, hstores, rise] at hsp hbounds
    have hother := hi (depth motions + 1) (by omega) hbounds.2
    omega

end Sequences

/-- What a sequence of operations leaves: the list, and the words that were taken. -/
theorem Applies.holds {m m' : Machine} {motions : List Motion} {limit : Int} (h : m.StackInside)
    (hsize : m.memory.size < 2 ^ 60) (hlimit : limit ≤ m.memory.size) (happlies : Applies m motions m')
    (hstays : StaysWithin limit motions) : m.Holds limit motions m' ∧ TakesTop motions := by
  induction happlies with
  | nil => exact ⟨holds_nil h, fun front w rest hmotions => by simp at hmotions⟩
  | set _ hsp hmemory ih => exact ⟨(ih hstays).1.set hsp hmemory, (ih hstays).2⟩
  | @apply motions m₁ _ op hop x ih =>
    obtain ⟨hholds, htop⟩ := ih (hstays.of_prefix (List.prefix_append _ _))
    have hmoved := moved_of_apply (hholds.stackInside h) (hholds.size ▸ hsize) hop x
    refine ⟨hholds.apply h hmoved hlimit hstays, fun front w rest hmotions => ?_⟩
    rcases List.eq_nil_or_concat rest with rfl | ⟨rest, last, rfl⟩
    · -- the word is the one that the last operation takes
      obtain ⟨rfl, hlast⟩ := List.append_inj' hmotions rfl
      obtain ⟨hlast, -⟩ := List.cons.inj hlast
      have hdepth := (hstays _ List.prefix_rfl).1
      rw [depth_append, depth_cons, depth_nil, hlast, rise] at hdepth
      rw [hlast] at hmoved
      exact hholds.head?_takes hmoved (by omega)
    · rw [List.concat_eq_append, ← List.cons_append, ← List.append_assoc] at hmotions
      exact htop front w rest (List.append_inj' hmotions rfl).1

end Machine
end Mac1
