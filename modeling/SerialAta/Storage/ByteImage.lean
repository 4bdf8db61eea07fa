/-!
# SerialAta.Storage.ByteImage

**Words as bytes.** Images of disks and memories are files of bytes; disks keep their
words little-endian in them and memories big-endian. A word that an image holds only
in part, or not at all, is filled up with zero bytes.
-/

namespace SerialAta

/-- The bytes of an image or a file. -/
abbrev Bytes := Array UInt8

/-- The most bytes that one list, image or store can take in memory. What is smaller is
taken to find room. -/
def maxBytes : Nat := 0x7FFFFFFFFFFFFFFF

namespace ByteImage

/-- Byte `i` of a word, byte 0 the least significant. -/
def byte (w : UInt32) (i : Nat) : UInt8 :=
  (w >>> (8 * i).toUInt32).toUInt8

/-- The word of four bytes, the least significant first. -/
def word (b0 b1 b2 b3 : UInt8) : UInt32 :=
  b0.toUInt32 ||| (b1.toUInt32 <<< 8) ||| (b2.toUInt32 <<< 16) ||| (b3.toUInt32 <<< 24)

/-- A word is made of its bytes. -/
@[simp] theorem word_byte (w : UInt32) : word (byte w 0) (byte w 1) (byte w 2) (byte w 3) = w := by
  refine UInt32.toBitVec_inj.mp (BitVec.eq_of_getLsbD_eq fun i hi => ?_)
  simp only [word, byte, UInt32.toBitVec_or, UInt32.toBitVec_shiftLeft,
    UInt32.toBitVec_shiftRight, UInt8.toBitVec_toUInt32, UInt32.toBitVec_toUInt8]
  generalize w.toBitVec = b
  match i, hi with
  | 0, _ | 1, _ | 2, _ | 3, _ | 4, _ | 5, _ | 6, _ | 7, _ | 8, _ | 9, _ | 10, _ | 11, _ | 12, _
  | 13, _ | 14, _ | 15, _ | 16, _ | 17, _ | 18, _ | 19, _ | 20, _ | 21, _ | 22, _ | 23, _ | 24, _
  | 25, _ | 26, _ | 27, _ | 28, _ | 29, _ | 30, _ | 31, _ => simp
  | i + 32, hi => omega

/-- Bytes are found again in the word they make. -/
theorem byte_word (b0 b1 b2 b3 : UInt8) :
    byte (word b0 b1 b2 b3) 0 = b0 ∧ byte (word b0 b1 b2 b3) 1 = b1 ∧
      byte (word b0 b1 b2 b3) 2 = b2 ∧ byte (word b0 b1 b2 b3) 3 = b3 := by
  refine ⟨?_, ?_, ?_, ?_⟩ <;>
  · refine UInt8.toBitVec_inj.mp (BitVec.eq_of_getLsbD_eq fun i hi => ?_)
    simp only [word, byte, UInt32.toBitVec_or, UInt32.toBitVec_shiftLeft,
      UInt32.toBitVec_shiftRight, UInt8.toBitVec_toUInt32, UInt32.toBitVec_toUInt8]
    match i, hi with
    | 0, _ | 1, _ | 2, _ | 3, _ | 4, _ | 5, _ | 6, _ | 7, _ => simp
    | i + 8, hi => omega

/-- The number of words that `bytes` spread over, a started one included. -/
def wordCount (bytes : Bytes) : Nat := (bytes.size + 3) / 4

/-- Little-endian word `i` of an image. -/
def littleWord (bytes : Bytes) (i : Nat) : UInt32 :=
  word (bytes.getD (4 * i) 0) (bytes.getD (4 * i + 1) 0) (bytes.getD (4 * i + 2) 0)
    (bytes.getD (4 * i + 3) 0)

/-- Big-endian word `i` of an image. -/
def bigWord (bytes : Bytes) (i : Nat) : UInt32 :=
  word (bytes.getD (4 * i + 3) 0) (bytes.getD (4 * i + 2) 0) (bytes.getD (4 * i + 1) 0)
    (bytes.getD (4 * i) 0)

/-- Adds a word to an image, least significant byte first. -/
def pushLittle (bytes : Bytes) (w : UInt32) : Bytes :=
  (((bytes.push (byte w 0)).push (byte w 1)).push (byte w 2)).push (byte w 3)

/-- Adds a word to an image, most significant byte first. -/
def pushBig (bytes : Bytes) (w : UInt32) : Bytes :=
  (((bytes.push (byte w 3)).push (byte w 2)).push (byte w 1)).push (byte w 0)

/-- The little-endian image of a list of words. -/
def ofWordsLittle (words : Array UInt32) : Bytes :=
  words.foldl pushLittle (.emptyWithCapacity (4 * words.size))

/-- The big-endian image of a list of words. -/
def ofWordsBig (words : Array UInt32) : Bytes :=
  words.foldl pushBig (.emptyWithCapacity (4 * words.size))

end ByteImage

end SerialAta
