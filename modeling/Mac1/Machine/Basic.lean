import Mac1.Machine.Fill
import Mac1.Machine.Mutation
import Mac1.SpecialAddress

/-! The machine: its registers and memory, the log of what it changed, and the micro-operations from which
    its operations are made. Every assignment that a micro-operation makes is logged. The stack grows to lower
    addresses and runs in a circle: below cell 0 stands the last cell. -/

namespace Mac1

/-- A machine. The program counter `pc` is the index of the next instruction, and the stack pointer `sp` the
    address of the top of the stack. -/
structure Machine where
  ac : Word := 0
  pc : Word := 0
  sp : Nat := 0
  memory : Memory
  log : Array Mutation := #[]
  halted : Bool := false
  deriving DecidableEq, Repr

namespace Machine

/-- How a machine is made. -/
structure Settings where
  memorySize : Nat := 65536
  fill : Fill := .known 0

/-- A new machine: its memory is filled, then the special addresses are set. There is always one cell. -/
def new (settings : Settings) : Machine :=
  let filled := settings.fill.memory (max 1 settings.memorySize)
  { memory := SpecialAddress.all.foldl (fun memory s => memory.set s.address s.value) filled }

/-- The stack pointer lies inside memory. -/
def StackInside (m : Machine) : Prop := m.sp < m.memory.size

/-- Moves the stack pointer to a word, taken modulo the memory size. -/
@[inline] def moveSp (m : Machine) (w : Word) : Machine :=
  { m with sp := (w.toInt % (m.memory.size : Int)).toNat }

/-- Marks the machine as halted. -/
def halt (m : Machine) : Machine := { m with halted := true }

/-- Empties the log. -/
def clearLog (m : Machine) : Machine := { m with log := #[] }

/-- The lines of the log. -/
def logLines (m : Machine) : List String := m.log.toList.map Mutation.render

/-- The registers, as a text. -/
def registers (m : Machine) : String :=
  "ac = " ++ m.ac.render ++ ", pc = " ++ m.pc.render ++ ", sp = " ++ Decimal.render m.sp

theorem stackInside_moveSp {m : Machine} (h : 0 < m.memory.size) (w : Word) : (m.moveSp w).StackInside := by
  have hpos : (0 : Int) < m.memory.size := Int.natCast_pos.mpr h
  have := Int.emod_lt_of_pos w.toInt hpos
  have := Int.emod_nonneg w.toInt (Int.ne_of_gt hpos)
  simp only [StackInside, moveSp]
  omega

/-! ### Micro-operations -/

/-- A change of the machine that may fail. The machine is known after a failure too. -/
abbrev MicroOp := EStateM Fault Machine

namespace MicroOp

/-- The accumulator. -/
@[inline] def getAc : MicroOp Word := fun m => .ok m.ac m

/-- The program counter. -/
@[inline] def getPc : MicroOp Word := fun m => .ok m.pc m

/-- The stack pointer, as a word. -/
@[inline] def getSp : MicroOp Word := fun m => .ok (Int64.ofNat m.sp) m

/-- Adds an entry to the log. -/
@[inline] def note (entry : Mutation) : MicroOp Unit := fun m => .ok () { m with log := m.log.push entry }

/-- Sets the accumulator. -/
@[inline] def setAc (value : Word) : MicroOp Unit := fun m =>
  .ok () { m with ac := value, log := m.log.push (.ac value) }

/-- Sets the program counter. -/
@[inline] def setPc (value : Word) : MicroOp Unit := fun m =>
  .ok () { m with pc := value, log := m.log.push (.pc value) }

/-- Moves the stack pointer to a word, taken modulo the memory size. -/
@[inline] def setSp (value : Word) : MicroOp Unit := fun m =>
  let m := m.moveSp value
  let offset : Int := if m.sp = 0 then 0 else m.sp - m.memory.size
  .ok () { m with log := m.log.push (.sp offset) }

/-- The index of the cell at an address. -/
@[inline] def check (address : Word) : MicroOp Nat := fun m =>
  match m.memory.check address with
  | .ok index => .ok index m
  | .error fault => .error fault m

/-- The word at an address. -/
@[inline] def read (address : Word) : MicroOp Word := fun m =>
  match m.memory.read address with
  | .ok value => .ok value m
  | .error fault => .error fault m

/-- Stores a word in a cell. -/
@[inline] def store (index : Nat) (value : Word) : MicroOp Unit := fun m =>
  .ok () { m with memory := m.memory.set index value, log := m.log.push (.cell index value) }

/-- The word on the top of the stack. -/
@[inline] def top : MicroOp Word := fun m =>
  match m.memory.get? m.sp with
  | some value => .ok value m
  | none => .error (.noStackCell m.sp) m

/-- Stores a word on the top of the stack. -/
@[inline] def setTop (value : Word) : MicroOp Unit := fun m =>
  if m.sp < m.memory.size then store m.sp value m else .error (.noStackCell m.sp) m

/-- Puts a word on the stack. -/
def push (value : Word) : MicroOp Unit := do
  setSp ((← getSp) - 1)
  setTop value

/-- Takes the word from the top of the stack. -/
def pop : MicroOp Word := do
  let value ← top
  setSp ((← getSp) + 1)
  return value

/-- Sets the program counter if a condition holds. -/
@[inline] def jumpIf (condition : Bool) (target : Word) : MicroOp Unit :=
  if condition then setPc target else pure ()

end MicroOp

end Machine

end Mac1
