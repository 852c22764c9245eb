import Mac1.Machine.Basic
import Mac1.Opcode

/-! What each operation does. An operation finds out whether it can be done before it changes anything. The
    program counter is left alone but for jumps, calls and returns: whoever runs an instruction has moved
    it on before. -/

namespace Mac1.Machine

open MicroOp

/-- Applies an operation to its parameter. Sums and differences wrap around. -/
def apply (op : Opcode) (x : Word) : MicroOp Unit :=
  match op with
  | .loco => setAc x
  | .lodd => do setAc (← read x)
  | .stod => do store (← check x) (← getAc)
  | .addd => do
    let value ← read x
    note (.adding (.cell x) value)
    setAc ((← getAc) + value)
  | .subd => do
    let value ← read x
    note (.subtracting (.cell x) value)
    setAc ((← getAc) - value)
  | .lodl => do setAc (← read ((← getSp) + x))
  | .stol => do store (← check ((← getSp) + x)) (← getAc)
  | .addl => do
    let value ← read ((← getSp) + x)
    note (.adding (.stack x) value)
    setAc ((← getAc) + value)
  | .subl => do
    let value ← read ((← getSp) + x)
    note (.subtracting (.stack x) value)
    setAc ((← getAc) - value)
  | .push => do push (← getAc)
  | .pop => do setAc (← pop)
  | .pshi => do push (← read (← getAc))
  | .popi => do
    let index ← check (← getAc)
    store index (← pop)
  | .jpos => do jumpIf (0 ≤ (← getAc)) x
  | .jzer => do jumpIf ((← getAc) = 0) x
  | .jneg => do jumpIf ((← getAc) < 0) x
  | .jnze => do jumpIf ((← getAc) ≠ 0) x
  | .jump => jumpIf true x
  | .call => do
    push (← getPc)
    setPc x
  | .retn => do setPc (← pop)
  | .swap => do
    let value ← getAc
    setAc (← getSp)
    setSp value
  | .insp => do setSp ((← getSp) + x)
  | .desp => do setSp ((← getSp) - x)

/-- Stores the initial value of an alias. -/
def storeInitial (address : Nat) (value : Word) : MicroOp Unit := do
  store (← check (Int64.ofNat address)) value

end Mac1.Machine
