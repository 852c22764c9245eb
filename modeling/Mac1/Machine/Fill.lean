import Mac1.Machine.Memory
import Mac1.Random.ChaCha
import Mac1.Random.Seed

/-! How a new memory is filled. A cell depends on the filling and on its own address, never on the size of the
    memory. Random cells hold numbers of 16 bits. -/

namespace Mac1

/-- A way to fill a memory. -/
inductive Fill where
  /-- Every cell holds the same word. -/
  | known (value : Word)
  /-- The cells are read off the random stream of a seed. -/
  | seeded (seed : UInt64)
  /-- The cells were drawn beforehand, without a seed. -/
  | drawn (cell : Nat → Int16)

namespace Fill

/-- Some blocks of a random stream, from the first one on. -/
def blocks (key : Vector UInt32 8) (count : Nat) : Array ChaCha.Block :=
  Array.ofFn fun number : Fin count => ChaCha.block key (UInt64.ofNat number)

/-- The word that a cell takes from a word of the stream: its low 16 bits, with a sign. -/
def cellOf (word : UInt32) : Word := word.toUInt16.toInt16.toInt64

/-- A new memory of a given size. Under a seed, the cell at an address takes the word of the stream with that
    number. -/
def memory (fill : Fill) (size : Nat) : Memory :=
  match fill with
  | .known value => .ofFn size fun _ => value
  | .seeded seed =>
    let blocks := blocks (Seed.key seed) ((size + 15) / 16)
    .ofFn size fun i => (blocks[i / 16]?).elim 0 fun block =>
      cellOf (block.get ⟨i % 16, Nat.mod_lt i (by decide)⟩)
  | .drawn cell => .ofFn size fun i => (cell i).toInt64

@[simp] theorem size_memory (fill : Fill) (size : Nat) : (fill.memory size).size = size := by
  cases fill <;> simp [memory]

end Fill

end Mac1
