import SerialAta.Drive.Disk
/-!
# SerialAta.Proofs.Storage.Images

**Images, byte by byte.** Word `i` of what is saved has the bytes from `4 * i` on, so a byte is
found by division, in either order (`getElem?_ofWordsLittle`, `getElem?_ofWordsBig`), and bytes of
a disk differ only where its words do (`Disk.getElem?_toBytes`).

Memories are read back from their images a word at a time. `BigEndian` says what bytes such a word
has, and `bigEndian_iff` that there is no other word of that kind.
-/

namespace SerialAta

namespace ByteImage

/-! ### Words laid out in bytes -/

/-- The bytes of a word, the least significant first. -/
def littleBytes (w : UInt32) : List UInt8 :=
  [byte w 0, byte w 1, byte w 2, byte w 3]

theorem getElem?_littleBytes (w : UInt32) {i : Nat} (h : i < 4) :
    (littleBytes w)[i]? = some (byte w i) := by
  match i, h with
  | 0, _ | 1, _ | 2, _ | 3, _ => rfl

/-- The most significant byte comes first where the order is turned around. -/
theorem getElem?_reverse_littleBytes (w : UInt32) {i : Nat} (h : i < 4) :
    (littleBytes w).reverse[i]? = some (byte w (3 - i)) := by
  match i, h with
  | 0, _ | 1, _ | 2, _ | 3, _ => rfl

/-- Words are spelled one after the other. -/
theorem toList_foldl_of_push {push : Bytes → UInt32 → Bytes} {spell : UInt32 → List UInt8}
    (hpush : ∀ bytes w, (push bytes w).toList = bytes.toList ++ spell w) (words : Array UInt32)
    (bytes : Bytes) :
    (words.foldl push bytes).toList = bytes.toList ++ words.toList.flatMap spell := by
  rw [← Array.foldl_toList]
  induction words.toList generalizing bytes with
  | nil => simp
  | cons w ws ih => rw [List.foldl_cons, ih, hpush, List.flatMap_cons, List.append_assoc]

theorem toList_ofWordsLittle (words : Array UInt32) :
    (ofWordsLittle words).toList = words.toList.flatMap littleBytes :=
  toList_foldl_of_push (fun bytes w => by simp [pushLittle, littleBytes]) words _

theorem toList_ofWordsBig (words : Array UInt32) :
    (ofWordsBig words).toList = words.toList.flatMap fun w => (littleBytes w).reverse :=
  toList_foldl_of_push (fun bytes w => by simp [pushBig, littleBytes]) words _

/-- A byte of spelled words is found by division. -/
theorem getElem?_of_spelled {bytes : Bytes} {words : Array UInt32} {spell : UInt32 → List UInt8}
    {place : Nat → Nat} (hbytes : bytes.toList = words.toList.flatMap spell)
    (hlength : ∀ w, (spell w).length = 4)
    (hspell : ∀ w, ∀ i < 4, (spell w)[i]? = some (byte w (place i))) (i : Nat) :
    bytes[i]? = words[i / 4]?.map fun w => byte w (place (i % 4)) := by
  have hoffset : i % 4 < 4 := Nat.mod_lt _ (by decide)
  rw [← Array.getElem?_toList, hbytes, getElem?_flatMap_of_length (by decide) hlength,
    Array.getElem?_toList]
  simp only [hspell _ _ hoffset, Option.map_eq_bind]
  rfl

theorem getElem?_ofWordsLittle (words : Array UInt32) (i : Nat) :
    (ofWordsLittle words)[i]? = words[i / 4]?.map fun w => byte w (i % 4) :=
  getElem?_of_spelled (toList_ofWordsLittle words) (fun _ => rfl)
    (fun w _ => getElem?_littleBytes w) i

theorem getElem?_ofWordsBig (words : Array UInt32) (i : Nat) :
    (ofWordsBig words)[i]? = words[i / 4]?.map fun w => byte w (3 - i % 4) :=
  getElem?_of_spelled (toList_ofWordsBig words) (fun _ => rfl)
    (fun w _ => getElem?_reverse_littleBytes w) i

@[simp] theorem size_ofWordsBig (words : Array UInt32) :
    (ofWordsBig words).size = 4 * words.size := by
  simp [← Array.length_toList, toList_ofWordsBig, littleBytes, List.map_const', Nat.mul_comm]

/-! ### Words read from bytes -/

/-- The word has the bytes of an image from its word `i` on, the most significant first, and zeros
where the image has ended. -/
def BigEndian (bytes : Bytes) (i : Nat) (w : UInt32) : Prop :=
  ∀ j < 4, byte w (3 - j) = bytes.getD (4 * i + j) 0

theorem bigEndian_bigWord (bytes : Bytes) (i : Nat) : BigEndian bytes i (bigWord bytes i) := by
  obtain ⟨h0, h1, h2, h3⟩ := byte_word (bytes.getD (4 * i + 3) 0) (bytes.getD (4 * i + 2) 0)
    (bytes.getD (4 * i + 1) 0) (bytes.getD (4 * i) 0)
  intro j hj
  match j, hj with
  | 0, _ => exact h3
  | 1, _ => exact h2
  | 2, _ => exact h1
  | 3, _ => exact h0

/-- The bytes make the word. -/
theorem bigEndian_iff {bytes : Bytes} {i : Nat} {w : UInt32} :
    BigEndian bytes i w ↔ w = bigWord bytes i := by
  refine ⟨fun h => ?_, fun h => h ▸ bigEndian_bigWord bytes i⟩
  rw [← word_byte w, bigWord]
  congr 1
  · exact h 3 (by decide)
  · exact h 2 (by decide)
  · exact h 1 (by decide)
  · exact h 0 (by decide)

/-- Words are found again in their image. -/
theorem bigWord_ofWordsBig {words : Array UInt32} {i : Nat} (h : i < words.size) :
    bigWord (ofWordsBig words) i = words[i] := by
  refine (bigEndian_iff.mp fun j hj => ?_).symm
  have hword : (4 * i + j) / 4 = i := by omega
  have hbyte : (4 * i + j) % 4 = j := by omega
  rw [Array.getD_eq_getD_getElem?, getElem?_ofWordsBig, hword, hbyte, Array.getElem?_eq_getElem h]
  rfl

end ByteImage

namespace Disk

theorem getElem?_toBytes (d : Disk) (i : Nat) :
    d.toBytes[i]? =
      if i < d.byteSize then some (ByteImage.byte (d.words.get (i / 4)) (i % 4)) else none := by
  have hsize : d.byteSize = 4 * (d.sectors * sectorWords) := by
    simp only [byteSize, sectorWords, sectorBytes]
    omega
  rw [toBytes, ByteImage.getElem?_ofWordsLittle]
  by_cases hi : i < d.byteSize
  · have hword : i / 4 < d.words.toArray.size := by
      rw [Store.size_toArray]
      omega
    rw [if_pos hi, Array.getElem?_eq_getElem hword]
    simp [Store.toArray]
  · have hword : d.words.toArray.size ≤ i / 4 := by
      rw [Store.size_toArray]
      omega
    rw [if_neg hi, Array.getElem?_eq_none hword]
    rfl

end Disk

end SerialAta
