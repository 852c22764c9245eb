/-! Machine words. The accumulator, the program counter and every memory cell hold one. -/

namespace Mac1

/-- A machine word: a signed integer of 64 bits, whose arithmetic wraps around. -/
abbrev Word := Int64

namespace Word

/-- The index below `limit` that a word stands for. Negative words stand for none. -/
def index? (limit : Nat) (w : Word) : Option Nat :=
  if 0 ≤ w.toInt ∧ w.toInt < limit then some w.toInt.toNat else none

theorem index?_eq_some_iff {limit i : Nat} {w : Word} :
    index? limit w = some i ↔ w.toInt = i ∧ i < limit := by
  unfold index?
  split
  · rw [Option.some.injEq]
    omega
  · simp only [reduceCtorEq, false_iff]
    omega

/-- The word lies in the range from 0 up to, but not including, `limit`. -/
def Inside (limit : Nat) (w : Word) : Prop := 0 ≤ w.toInt ∧ w.toInt < limit

theorem exists_index?_iff {limit : Nat} {w : Word} : (∃ i, index? limit w = some i) ↔ Inside limit w := by
  unfold index? Inside
  split <;> simp_all

end Word

end Mac1
