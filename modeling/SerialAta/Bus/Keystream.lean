import SerialAta.Bus.Stalls
/-!
# SerialAta.Bus.Keystream

A **keystream**: pseudo-random words of the ChaCha cipher with twelve rounds, and the
random numbers drawn from them.

The stream is the sequence of cipher blocks under one key, for block counters 0, 1,
2, …, with a nonce of zero, each block giving its sixteen words in order. The key is
drawn from a seed by a linear congruential generator with permuted output
(`Keystream.ofSeed`). A number below a bound is drawn by rejection (`Keystream.draw`).

The bus takes any `RandomSource`; this is the one that simulations run with.
-/

namespace SerialAta

/-- The sixteen words that a block is computed from and consists of. -/
abbrev CipherBlock := Vector UInt32 16

namespace CipherBlock

/-- The word with its bits turned left by `n`, which is between 1 and 31. -/
def rotateLeft (w n : UInt32) : UInt32 := (w <<< n) ||| (w >>> (32 - n))

/-- Mixes four words of a block. -/
def quarterRound (s : CipherBlock) (i j k l : Fin 16) : CipherBlock :=
  let a := s[i]; let b := s[j]; let c := s[k]; let d := s[l]
  let a := a + b; let d := rotateLeft (d ^^^ a) 16
  let c := c + d; let b := rotateLeft (b ^^^ c) 12
  let a := a + b; let d := rotateLeft (d ^^^ a) 8
  let c := c + d; let b := rotateLeft (b ^^^ c) 7
  (((s.set i a).set j b).set k c).set l d

/-- Two rounds: one over the columns of the block, one over its diagonals. -/
def doubleRound (s : CipherBlock) : CipherBlock :=
  let s := quarterRound s 0 4 8 12
  let s := quarterRound s 1 5 9 13
  let s := quarterRound s 2 6 10 14
  let s := quarterRound s 3 7 11 15
  let s := quarterRound s 0 5 10 15
  let s := quarterRound s 1 6 11 12
  let s := quarterRound s 2 7 8 13
  quarterRound s 3 4 9 14

/-- The block before mixing: the constant words, the key, the counter and a nonce
of zero. -/
def setup (key : Vector UInt32 8) (counter : UInt64) : CipherBlock :=
  #v[0x61707865, 0x3320646E, 0x79622D32, 0x6B206574,
    key[0], key[1], key[2], key[3], key[4], key[5], key[6], key[7],
    counter.toUInt32, (counter >>> 32).toUInt32, 0, 0]

/-- The block of a key and a counter, after twelve rounds. -/
def compute (key : Vector UInt32 8) (counter : UInt64) : CipherBlock :=
  let start := setup key counter
  let mixed := (List.range 6).foldl (fun s _ => doubleRound s) start
  Vector.zipWith (· + ·) mixed start

end CipherBlock

/-- A keystream from some point on. -/
structure Keystream where
  /-- The key. -/
  key : Vector UInt32 8
  /-- The counter of the next block. -/
  counter : UInt64
  /-- Words of the present block that have not been used. -/
  pending : List UInt32

namespace Keystream

/-- The state after one step of the generator that keys are drawn from. -/
def seedStep (state : UInt64) : UInt64 :=
  state * 6364136223846793005 + 11634580027462260723

/-- The key word of a generator state: its high bits, folded and turned right by its
topmost ones. -/
def seedWord (state : UInt64) : UInt32 :=
  let folded := (((state >>> 18) ^^^ state) >>> 27).toUInt32
  let turn := (state >>> 59).toUInt32
  (folded >>> turn) ||| (folded <<< ((32 - turn) % 32))

/-- The generator after `n + 1` steps from a seed. -/
def seedState (seed : UInt64) : (n : Nat) → UInt64
  | 0 => seedStep seed
  | n + 1 => seedStep (seedState seed n)

/-- The keystream of a seed: eight generator words make the key. -/
def ofSeed (seed : UInt64) : Keystream :=
  { key := .ofFn fun i => seedWord (seedState seed i)
    counter := 0
    pending := [] }

/-- The next word, and the keystream after it. -/
def next (s : Keystream) : UInt32 × Keystream :=
  match s.pending with
  | word :: rest => (word, { s with pending := rest })
  | [] =>
    let block := CipherBlock.compute s.key s.counter
    (block[0], { s with counter := s.counter + 1, pending := block.toList.tail })

/-! ### Random numbers -/

/-- The words after which a stream starts again: sixteen for each block counter. -/
def period : Nat := 0x100000000000000000

/-- The largest low half that a product of a fair draw may have: the draws up to it
fall into equally many for each of the `bound` outcomes. Scaling `bound` to 32 bits
keeps at least half of all draws. -/
def zone (bound : UInt32) : UInt32 :=
  (bound <<< (31 - bound.log2)) - 1

/-- A number below `bound`, all equally likely: the high half of the product of a word
with `bound`. Words that would favour some numbers are passed over. The search is through
`left` words, which are meant to be all that the stream has (`period`): where it finds
nothing, going on would not either. -/
def draw (bound : UInt32) : (left : Nat) → Keystream → UInt32 × Keystream
  | 0, stream => (0, stream)
  | left + 1, stream =>
    let (word, stream) := stream.next
    let product := word.toUInt64 * bound.toUInt64
    if product.toUInt32 ≤ zone bound then ((product >>> 32).toUInt32, stream)
    else draw bound left stream

instance : RandomSource Keystream where
  ofSeed := ofSeed
  below bound := draw bound period

end Keystream

/-- Stalls of a keystream. -/
abbrev RandomStalls := StallSource Keystream

/-- Stalls of a seed. -/
def RandomStalls.ofSeed (oneIn : UInt32) (seed : UInt64) : RandomStalls :=
  { oneIn, source := .ofSeed seed }

end SerialAta
