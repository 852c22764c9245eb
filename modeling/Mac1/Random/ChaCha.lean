/-! The ChaCha stream of 32-bit words with twelve rounds. The stream of a key is read in blocks of 16 words;
    the block with a given number depends on the key and on that number only. -/

namespace Mac1.ChaCha

/-- The 16 words that are mixed, and the 16 words of the stream that come out. -/
abbrev Block := Vector UInt32 16

/-- A word rotated to the left by less than 32 bits. -/
@[inline] def rotateLeft (x n : UInt32) : UInt32 := (x <<< n) ||| (x >>> (32 - n))

/-- Mixes four of the words. -/
@[inline] def quarterRound (s : Block) (a b c d : Fin 16) : Block :=
  let wa := s[a] + s[b]
  let wd := rotateLeft (s[d] ^^^ wa) 16
  let wc := s[c] + wd
  let wb := rotateLeft (s[b] ^^^ wc) 12
  let wa := wa + wb
  let wd := rotateLeft (wd ^^^ wa) 8
  let wc := wc + wd
  let wb := rotateLeft (wb ^^^ wc) 7
  (((s.set a wa).set b wb).set c wc).set d wd

/-- Two rounds: the words form a square, of which the first round mixes the columns and the second the
    diagonals. -/
def doubleRound (s : Block) : Block :=
  let s := quarterRound s 0 4 8 12
  let s := quarterRound s 1 5 9 13
  let s := quarterRound s 2 6 10 14
  let s := quarterRound s 3 7 11 15
  let s := quarterRound s 0 5 10 15
  let s := quarterRound s 1 6 11 12
  let s := quarterRound s 2 7 8 13
  quarterRound s 3 4 9 14

/-- The words before mixing: four constants, the key, the number of the block, and a nonce of zero. -/
def initial (key : Vector UInt32 8) (number : UInt64) : Block :=
  #v[0x61707865, 0x3320646e, 0x79622d32, 0x6b206574,
    key[0], key[1], key[2], key[3], key[4], key[5], key[6], key[7],
    number.toUInt32, (number >>> 32).toUInt32, 0, 0]

/-- The block with a given number. -/
def block (key : Vector UInt32 8) (number : UInt64) : Block :=
  let start := initial key number
  let mixed := Nat.repeat doubleRound 6 start
  start.zipWith (· + ·) mixed

end Mac1.ChaCha
