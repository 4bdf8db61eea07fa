import SerialAta.Proofs.Drive.DiskWrites
import SerialAta.Proofs.Storage.Images
/-!
# SerialAta.Proofs.Storage.DiskAccess

**A disk is an array of little-endian words** (`Disk.accesses_little_endian_words`), read by
sectors and written from any word on.

Whether an access is carried out depends on sectors alone. `Disk.reach` counts them for a write,
rounded up where the words end and never less than the one that they start in, so a write is
carried out just if the sectors in which it starts and ends are on the disk (`reach_le_iff`); and
then all of its words are. What an access does is told by the image, byte by byte: it has the
words, each of them little-endian, where they were written or read (`ByteImage.Carries`).
-/

namespace SerialAta

namespace ByteImage

/-- An image has `words` from its word `start` on, the least significant byte of each first. -/
def Carries (image : Bytes) (start : Nat) (words : List UInt32) : Prop :=
  ∀ i b, (hi : i < words.length) → b < 4 →
    image[4 * (start + i) + b]? = some (byte words[i] b)

end ByteImage

theorem Store.getElem?_slice {size : Nat} (s : Store size) (start : Nat) {count j : Nat}
    (hj : j < count) : (s.slice start count)[j]? = some (s.get (start + j)) := by
  rw [slice, List.getElem?_map, List.getElem?_range hj, Option.map_some]

namespace Disk

variable {d d' : Disk} {lba : UInt64} {offset start count : Nat} {words : List UInt32}

/-! ### Images of disks -/

theorem byteSize_eq (d : Disk) : d.byteSize = 4 * (d.sectors * sectorWords) := by
  simp only [byteSize, sectorWords, sectorBytes]
  omega

@[simp] theorem size_toBytes (d : Disk) : d.toBytes.size = d.byteSize := by
  have hend : ∀ i, d.toBytes.size ≤ i ↔ d.byteSize ≤ i := by
    intro i
    rw [← Array.getElem?_eq_none_iff, getElem?_toBytes]
    by_cases hi : i < d.byteSize
    · rw [if_pos hi]
      exact ⟨fun h => (Option.some_ne_none _ h).elim, fun h => absurd h (by omega)⟩
    · rw [if_neg hi]
      exact ⟨fun _ => by omega, fun _ => rfl⟩
  exact Nat.le_antisymm ((hend _).mpr (Nat.le_refl _)) ((hend _).mp (Nat.le_refl _))

/-- The bytes of a word of the disk. -/
theorem getElem?_toBytes_word (d : Disk) {i b : Nat} (hi : i < d.sectors * sectorWords)
    (hb : b < 4) : d.toBytes[4 * i + b]? = some (ByteImage.byte (d.words.get i) b) := by
  have hsize := d.byteSize_eq
  have hword : (4 * i + b) / 4 = i := by omega
  have hbyte : (4 * i + b) % 4 = b := by omega
  rw [getElem?_toBytes, if_pos (by omega), hword, hbyte]

/-- Words that are laid over a disk are in its image. -/
theorem carries_overlaid (h : start + words.length ≤ d.sectors * sectorWords) :
    ByteImage.Carries (d.overlaid start words).toBytes start words := by
  intro i b hi hb
  have hin : start + i < (d.overlaid start words).sectors * sectorWords :=
    Nat.lt_of_lt_of_le (Nat.add_lt_add_left hi start) h
  rw [getElem?_toBytes_word _ hin hb, get_overlaid d h, if_pos (by omega), Nat.add_sub_cancel_left,
    List.getD_eq_getElem?_getD, List.getElem?_eq_getElem hi]
  rfl

/-- Bytes before and after them are as they were. -/
theorem getElem?_toBytes_overlaid (h : start + words.length ≤ d.sectors * sectorWords) {i : Nat}
    (hi : i < 4 * start ∨ 4 * (start + words.length) ≤ i) :
    (d.overlaid start words).toBytes[i]? = d.toBytes[i]? := by
  have hout : ¬(start ≤ i / 4 ∧ i / 4 < start + words.length) := by omega
  rw [getElem?_toBytes, getElem?_toBytes, get_overlaid d h, if_neg hout]
  rfl

/-! ### Which accesses are carried out -/

/-- The sectors that a write needs are those in which it starts and ends. -/
theorem reach_le_iff {length : Nat} :
    reach offset length ≤ count ↔
      offset < count * sectorWords ∧ offset + length ≤ count * sectorWords := by
  refine ⟨fun h => ?_, fun h => reach_le h.1 h.2⟩
  simp only [reach, sectorWords, sectorBytes] at *
  omega

theorem write_eq (d : Disk) (lba : UInt64) (offset : Nat) (words : List UInt32) :
    d.write lba offset words =
      if lba.toNat + reach offset words.length ≤ d.sectors then
        (.ok (), d.overlaid (lba.toNat * sectorWords + offset) words)
      else (.error (.outOfRange lba (reach offset words.length) d.sectors), d) := by
  by_cases hdisk : lba.toNat + reach offset words.length ≤ d.sectors
  · have hseek : d.seek lba (reach offset words.length) = .ok lba.toNat := if_pos hdisk
    rw [write, hseek, if_pos hdisk]
    rfl
  · have hseek : d.seek lba (reach offset words.length) =
        .error (.outOfRange lba (reach offset words.length) d.sectors) := if_neg hdisk
    rw [write, hseek, if_neg hdisk]

theorem read_eq (d : Disk) (lba : UInt64) (count : Nat) :
    d.read lba count =
      if lba.toNat + count ≤ d.sectors then
        .ok (d.words.slice (lba.toNat * sectorWords) (count * sectorWords))
      else .error (.outOfRange lba count d.sectors) := by
  by_cases hdisk : lba.toNat + count ≤ d.sectors
  · have hseek : d.seek lba count = .ok lba.toNat := if_pos hdisk
    rw [read, hseek, if_pos hdisk]
  · have hseek : d.seek lba count = .error (.outOfRange lba count d.sectors) := if_neg hdisk
    rw [read, hseek, if_neg hdisk]

/-- A write that has been carried out. -/
theorem write_ok (h : d.write lba offset words = (.ok (), d')) :
    lba.toNat * sectorWords + offset + words.length ≤ d.sectors * sectorWords ∧
      d' = d.overlaid (lba.toNat * sectorWords + offset) words := by
  rw [write_eq] at h
  split at h
  · next hdisk =>
    have hreach : reach offset words.length ≤ d.sectors - lba.toNat := by omega
    have hend := (reach_le_iff.mp hreach).2
    have hstart : lba.toNat * sectorWords ≤ d.sectors * sectorWords :=
      Nat.mul_le_mul_right _ (by omega)
    rw [Nat.sub_mul] at hend
    exact ⟨by omega, (congrArg Prod.snd h).symm⟩
  · cases h

/-- A read that has been carried out. -/
theorem read_ok (h : d.read lba count = .ok words) :
    lba.toNat * sectorWords + count * sectorWords ≤ d.sectors * sectorWords ∧
      words = d.words.slice (lba.toNat * sectorWords) (count * sectorWords) := by
  rw [read_eq] at h
  split at h
  · next hdisk =>
    rw [← Nat.add_mul]
    exact ⟨Nat.mul_le_mul_right _ hdisk, (Except.ok.inj h).symm⟩
  · cases h

/-- What is read is in the image. -/
theorem carries_of_read (h : d.read lba count = .ok words) :
    ByteImage.Carries d.toBytes (lba.toNat * sectorWords) words := by
  obtain ⟨hend, hwords⟩ := read_ok h
  intro i b hi hb
  have hcount : i < count * sectorWords := by
    rw [hwords, Store.length_slice] at hi
    exact hi
  have hword := d.words.getElem?_slice (lba.toNat * sectorWords) hcount
  rw [← hwords, List.getElem?_eq_getElem hi, Option.some_inj] at hword
  rw [getElem?_toBytes_word d (by omega) hb, hword]

/-- Whoever reads after a write gets its words where they are, and elsewhere what could have been
read before. -/
theorem read_of_write (hwrite : d.write lba offset words = (.ok (), d')) {lba' : UInt64}
    {after : List UInt32} (hread : d'.read lba' count = .ok after) :
    ∃ before, d.read lba' count = .ok before ∧ ∀ j < after.length,
      let start := lba.toNat * sectorWords + offset
      let i := lba'.toNat * sectorWords + j
      after[j]? =
        if start ≤ i ∧ i < start + words.length then words[i - start]? else before[j]? := by
  obtain ⟨hend, rfl⟩ := write_ok hwrite
  rw [read_eq] at hread
  split at hread
  · next hdisk =>
    refine ⟨_, (read_eq d lba' count).trans (if_pos hdisk), fun j hj => ?_⟩
    rw [← Except.ok.inj hread] at hj ⊢
    rw [Store.length_slice] at hj
    rw [Store.getElem?_slice _ _ hj, Store.getElem?_slice _ _ hj, get_overlaid d hend]
    dsimp only
    split
    · next hin =>
      rw [List.getD_eq_getElem?_getD, List.getElem?_eq_getElem (by omega)]
      rfl
    · rfl
  · cases hread

/-- **A disk is an array of little-endian words.** A write is carried out exactly if the disk has
all the sectors from the first one on, up to the one in which its words end and at least up to the
one in which they start. Then the image has the words, little-endian, from their place on, every
other byte and the size are as they were, and whoever reads gets the words where they are and the
words of before elsewhere. Otherwise the disk is as it was, and the error tells the sectors that
were asked for. A read is carried out exactly if the disk has all its sectors, and gives the words
that the image has there. No access reaches beyond the end of the image. -/
theorem accesses_little_endian_words (d : Disk) (lba : UInt64) :
    (∀ offset words,
      let start := lba.toNat * sectorWords + offset
      let needed := max ((offset + words.length + (sectorWords - 1)) / sectorWords)
        (offset / sectorWords + 1)
      ((∃ d', d.write lba offset words = (.ok (), d')) ↔ lba.toNat + needed ≤ d.sectors) ∧
      (∀ e d', d.write lba offset words = (.error e, d') →
        e = .outOfRange lba needed d.sectors ∧ d' = d) ∧
      ∀ d', d.write lba offset words = (.ok (), d') →
        4 * (start + words.length) ≤ d.toBytes.size ∧
        d'.sectors = d.sectors ∧ d'.toBytes.size = d.toBytes.size ∧
        ByteImage.Carries d'.toBytes start words ∧
        (∀ i, i < 4 * start ∨ 4 * (start + words.length) ≤ i → d'.toBytes[i]? = d.toBytes[i]?) ∧
        ∀ lba' count after, d'.read lba' count = .ok after →
          ∃ before, d.read lba' count = .ok before ∧ ∀ j < after.length,
            let i := lba'.toNat * sectorWords + j
            after[j]? =
              if start ≤ i ∧ i < start + words.length then words[i - start]? else before[j]?) ∧
    ∀ count,
      ((∃ words, d.read lba count = .ok words) ↔ lba.toNat + count ≤ d.sectors) ∧
      ∀ words, d.read lba count = .ok words →
        words.length = count * sectorWords ∧
        4 * (lba.toNat * sectorWords + words.length) ≤ d.toBytes.size ∧
        ByteImage.Carries d.toBytes (lba.toNat * sectorWords) words := by
  refine ⟨fun offset words => ?_, fun count => ⟨?_, fun words h => ?_⟩⟩
  · intro start needed
    refine ⟨?_, fun e d' h => ?_, fun d' h => ?_⟩
    · rw [write_eq]
      split
      · next hdisk => exact ⟨fun _ => hdisk, fun _ => ⟨_, rfl⟩⟩
      · next hdisk => exact ⟨fun ⟨_, h⟩ => (by cases h), fun h => absurd h hdisk⟩
    · rw [write_eq] at h
      split at h
      · cases h
      · cases h
        exact ⟨rfl, rfl⟩
    · obtain ⟨hend, hd'⟩ := write_ok h
      have hsize : d'.toBytes.size = d.toBytes.size := by
        rw [size_toBytes, size_toBytes, hd']
        rfl
      refine ⟨?_, by rw [hd']; rfl, hsize, ?_, ?_, fun _ _ _ => read_of_write h⟩
      · rw [size_toBytes, byteSize_eq]
        exact Nat.mul_le_mul_left 4 hend
      · rw [hd']
        exact carries_overlaid hend
      · rw [hd']
        exact fun i => getElem?_toBytes_overlaid hend
  · rw [read_eq]
    split
    · next hdisk => exact ⟨fun _ => hdisk, fun _ => ⟨_, rfl⟩⟩
    · next hdisk => exact ⟨fun ⟨_, h⟩ => (by cases h), fun h => absurd h hdisk⟩
  · obtain ⟨hend, hwords⟩ := read_ok h
    have hlength : words.length = count * sectorWords := by rw [hwords, Store.length_slice]
    refine ⟨hlength, ?_, carries_of_read h⟩
    rw [size_toBytes, byteSize_eq, hlength]
    exact Nat.mul_le_mul_left 4 hend

end Disk

end SerialAta
