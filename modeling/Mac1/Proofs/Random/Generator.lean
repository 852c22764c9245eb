import Mac1.Random.ChaCha

/-! Reading the stream of a key one word after the other. A generator keeps the block that it is reading and makes the
    next one when that is used up. The word that it gives depends only on how many it has given before. -/

namespace Mac1.ChaCha

/-- The word of the stream with a given number. -/
def word (key : Vector UInt32 8) (i : Nat) : UInt32 := (block key (UInt64.ofNat (i / 16)))[i % 16]?.getD 0

theorem word_eq_getElem (key : Vector UInt32 8) {i place : Nat} (h : place < 16) (hplace : i % 16 = place) :
    word key i = (block key (UInt64.ofNat (i / 16)))[place] := by
  rw [word, hplace, Vector.getElem?_eq_getElem h, Option.getD_some]

/-- Reads the stream of a key. A new generator has no block yet: all of its words count as used. -/
structure Generator where
  key : Vector UInt32 8
  /-- The number of the block that is made next. -/
  number : UInt64 := 0
  current : Block := Vector.replicate 16 0
  /-- How many words of the current block have been given. -/
  used : Nat := 16

namespace Generator

/-- The next word. It is the first one of a new block if the current block is used up. -/
def next (g : Generator) : UInt32 × Generator :=
  if h : g.used < 16 then (g.current[g.used], { g with used := g.used + 1 })
  else
    let made := block g.key g.number
    (made[0], { g with number := g.number + 1, current := made, used := 1 })

/-- The generator has given the first `i` words of a stream, so it has made the blocks that hold them. -/
structure Gave (g : Generator) (key : Vector UInt32 8) (i : Nat) : Prop where
  sameKey : g.key = key
  number : g.number = UInt64.ofNat ((i + 15) / 16)
  current : 0 < i → g.current = block key (UInt64.ofNat ((i - 1) / 16))
  used : g.used + 16 * ((i + 15) / 16) = i + 16

section Words
variable {g : Generator} {key : Vector UInt32 8} {i : Nat}

theorem gave_zero (key : Vector UInt32 8) : Gave { key } key 0 where
  sameKey := rfl
  number := rfl
  current h := absurd h (Nat.lt_irrefl 0)
  used := rfl

/-- A generator gives the word whose turn it is, in the middle of a block as at its end. -/
theorem Gave.next (h : g.Gave key i) : g.next.1 = word key i ∧ g.next.2.Gave key (i + 1) := by
  have hused := h.used
  by_cases hleft : g.used < 16
  · have hplace : i % 16 = g.used := by omega
    have hnumber : (i + 1 + 15) / 16 = (i + 15) / 16 := by omega
    have hcurrent : g.current = block key (UInt64.ofNat (i / 16)) := by
      rw [h.current (by omega), show (i - 1) / 16 = i / 16 by omega]
    rw [Generator.next, dif_pos hleft]
    constructor
    · rw [word_eq_getElem key hleft hplace]
      simp only [hcurrent]
    · constructor
      case sameKey => exact h.sameKey
      case number => rw [hnumber, h.number]
      case current => exact fun _ => hcurrent
      case used => rw [hnumber, Nat.add_right_comm, hused, Nat.add_right_comm]
  · have hplace : i % 16 = 0 := by omega
    have hnumber : g.number = UInt64.ofNat (i / 16) := by
      rw [h.number, show (i + 15) / 16 = i / 16 by omega]
    have hmade : block g.key g.number = block key (UInt64.ofNat (i / 16)) := by
      rw [h.sameKey, hnumber]
    rw [Generator.next, dif_neg hleft]
    constructor
    · rw [word_eq_getElem key (by decide) hplace]
      simp only [hmade]
    · constructor
      case sameKey => exact h.sameKey
      case number =>
        rw [show (i + 1 + 15) / 16 = i / 16 + 1 by omega, UInt64.ofNat_add, ← hnumber]
        rfl
      case current => exact fun _ => hmade
      case used =>
        simp only
        omega

end Words

end Generator

end Mac1.ChaCha
