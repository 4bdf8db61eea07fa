/-!
# SerialAta.Frame.Scrambler

The **scrambler** of the link: a 16-bit shift register whose output whitens the
words of a frame.

Each word advances the register by 32 bits, and the bits that leave it form a
mask. Scrambling is adding that mask bit by bit, so the receiver takes it off with
the same register, provided both ends loaded it at the same frame boundary
(`Scrambler.scramble_scramble`).
-/

namespace SerialAta

/-- A scrambler, known by the fill of its register. -/
structure Scrambler where
  /-- The sixteen bits of the register. -/
  fill : UInt16
  deriving DecidableEq, Repr

namespace Scrambler

/-- The feedback taps. -/
def polynomial : UInt16 := 0xA011

/-- The fill at the start of a frame. -/
def initial : Scrambler := ⟨0xFFFF⟩

instance : Inhabited Scrambler := ⟨initial⟩

/-- The bit that leaves the register next. -/
def outputBit (fill : UInt16) : UInt16 := fill >>> 15

/-- The register one bit on. -/
def shift (fill : UInt16) : UInt16 :=
  if outputBit fill = 0 then fill <<< 1 else (fill <<< 1) ^^^ polynomial

/-- The mask collected and the fill reached after `n` bits: the `k`-th bit to leave
the register is bit `k` of the mask. -/
def afterBits (fill : UInt16) (n : Nat) : UInt32 × UInt16 :=
  (List.range n).foldl
    (fun (mask, fill) k => (mask ||| ((outputBit fill).toUInt32 <<< k.toUInt32), shift fill))
    (0, fill)

/-- The mask for one word, and the register after it. -/
def nextMask (s : Scrambler) : UInt32 × Scrambler :=
  let (mask, fill) := afterBits s.fill 32
  (mask, ⟨fill⟩)

/-- Scrambles one word, or takes the scrambling off it. -/
def scramble (s : Scrambler) (word : UInt32) : UInt32 × Scrambler :=
  let (mask, s) := s.nextMask
  (word ^^^ mask, s)

/-- Two registers in step cancel each other. -/
theorem scramble_scramble (s : Scrambler) (word : UInt32) :
    s.scramble (s.scramble word).1 = (word, (s.scramble word).2) := by
  simp only [scramble, UInt32.xor_assoc, UInt32.xor_self, UInt32.xor_zero]

end Scrambler

end SerialAta
