/-! Stretching a seed of 64 bits to a key of 256 bits. A linear congruential generator steps once for each word
    of the key, and the word is a permuted part of the generator's state. -/

namespace Mac1.Seed

/-- The state after one step. -/
def next (state : UInt64) : UInt64 := state * 6364136223846793005 + 11634580027462260723

/-- The word that a state gives: its high bits, folded and rotated by its highest five bits. -/
def output (state : UInt64) : UInt32 :=
  let folded := (((state >>> 18) ^^^ state) >>> 27).toUInt32
  let amount := (state >>> 59).toUInt32
  (folded >>> amount) ||| (folded <<< (32 - amount))

/-- The key of a seed. -/
def key (seed : UInt64) : Vector UInt32 8 :=
  Vector.ofFn fun i : Fin 8 => output (Nat.repeat next (i + 1) seed)

end Mac1.Seed
