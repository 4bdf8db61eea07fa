/-!
# SerialAta.Frame.Crc

The **checksum** of a frame: a 32-bit cyclic redundancy check over its words, each
taken most significant bit first, from a seed that is not zero.

`Crc.feedBits` is the serial register, one bit at a time; `Crc.advance` takes a word
and `Crc.ofWords` a frame.
-/

namespace SerialAta.Crc

/-- The generator polynomial, less its leading term. -/
def polynomial : UInt32 := 0x04C11DB7

/-- The register at the start of a frame. -/
def seed : UInt32 := 0x52325032

/-- The register after one message bit, which is added to the bit that leaves. -/
def shift (crc bit : UInt32) : UInt32 :=
  if (crc >>> 31) ^^^ bit = 0 then crc <<< 1 else (crc <<< 1) ^^^ polynomial

/-- The register after the low `n` bits of `word`, highest of them first. -/
def feedBits (word : UInt32) : (n : Nat) → (crc : UInt32) → UInt32
  | 0, crc => crc
  | n + 1, crc => feedBits word n (shift crc ((word >>> n.toUInt32) &&& 1))

/-- The register after one word. -/
def advance (crc word : UInt32) : UInt32 :=
  feedBits word 32 crc

/-- The register after a list of words, from `crc`. -/
def advanceAll (crc : UInt32) (words : List UInt32) : UInt32 :=
  words.foldl advance crc

/-- The checksum of a frame. -/
def ofWords (words : List UInt32) : UInt32 :=
  advanceAll seed words

@[simp] theorem advanceAll_nil (crc : UInt32) : advanceAll crc [] = crc := rfl

@[simp] theorem advanceAll_cons (crc w : UInt32) (ws : List UInt32) :
    advanceAll crc (w :: ws) = advanceAll (advance crc w) ws := rfl

theorem advanceAll_append (crc : UInt32) (us ws : List UInt32) :
    advanceAll crc (us ++ ws) = advanceAll (advanceAll crc us) ws :=
  List.foldl_append

end SerialAta.Crc
