import SerialAta.Proofs.Bus.Queue
import SerialAta.Proofs.Storage.Files
import SerialAta.Proofs.Storage.Images
/-!
# SerialAta.Proofs.Bus.MemoryImages

**Memories keep their words in images of any size** (`BusMemory.images_round_trip`).

Words are loaded one after the other, each where its address wraps around to. As long as there are
no more of them than the memory holds, none is loaded over another (`word_loadWords`), and the rest
of the memory is left alone (`word_loadWords_of_ne`). What is left to say is how many words are
loaded: from a file the whole ones that fit, from bytes a started one as well.
-/

namespace SerialAta

namespace BusMemory

variable {σ τ : Type} {m : BusMemory σ} {addr i j k n : Nat} {bytes : Bytes} {dir dir' : Directory}
  {name : String}

/-! ### Words, one after the other -/

theorem word_setWord_of_ne (value : UInt32) (h : i % m.capacity ≠ addr % m.capacity) :
    (m.setWord addr value).word i = m.word i := by
  show (m.cells.modify _ _).get (i % m.capacity) = _
  rw [Store.get_modify, if_neg fun hsame => h hsame.1.symm]
  rfl

theorem word_setWord_self (hpos : 0 < m.capacity) (addr : Nat) (value : UInt32) :
    (m.setWord addr value).word addr = value := by
  rw [setWord, word_modifyWord hpos, if_pos rfl]

/-- Words elsewhere are left as they are. -/
theorem word_loadWords_of_ne
    (h : ∀ j, k ≤ j → j < k + n → i % m.capacity ≠ (addr + j) % m.capacity) :
    (m.loadWords addr bytes k n).word i = m.word i := by
  induction n generalizing m k with
  | zero => rfl
  | succ n ih =>
      have hfirst := h k (Nat.le_refl k) (by omega)
      have hrest : ∀ j, k + 1 ≤ j → j < k + 1 + n → i % m.capacity ≠ (addr + j) % m.capacity :=
        fun j hj hjn => h j (by omega) (by omega)
      exact (ih (m := m.setWord (addr + k) _) hrest).trans (word_setWord_of_ne _ hfirst)

/-- Words that the memory can hold all at once do not get in each other's way. -/
theorem word_loadWords (hn : n ≤ m.capacity) (hk : k ≤ j) (hj : j < k + n) :
    (m.loadWords addr bytes k n).word (addr + j) = ByteImage.bigWord bytes j := by
  induction n generalizing m k with
  | zero => omega
  | succ n ih =>
      rw [loadWords]
      rcases Nat.eq_or_lt_of_le hk with rfl | hlt
      · rw [word_loadWords_of_ne fun j hkj hjn heq => ?_]
        · exact word_setWord_self (by omega) _ _
        · -- The two addresses are less than a turn around the memory apart.
          have hturn : (addr + j - (addr + k)) % m.capacity = 0 :=
            Nat.sub_mod_eq_zero_of_mod_eq heq.symm
          rw [Nat.mod_eq_of_lt (by omega)] at hturn
          omega
      · exact ih (Nat.le_of_succ_le hn) hlt (by omega)

/-! ### Files -/

/-- What comes of a file that can be read. -/
theorem load_of_read (hread : dir.read name = .ok bytes) :
    m.load dir name =
      (if m.capacity ≤ bytes.size / 4 then .ok ()
        else .error (.shortImage (bytes.size / 4) m.capacity),
      m.cleared.loadWords 0 bytes 0 (min (bytes.size / 4) m.capacity)) := by
  rw [load, hread]
  show (if min (bytes.size / 4) m.capacity < m.capacity then
    Except.error (BusError.shortImage (min (bytes.size / 4) m.capacity) m.capacity) else .ok (),
    m.cleared.loadWords 0 bytes 0 (min (bytes.size / 4) m.capacity)) = _
  congr 1
  by_cases henough : m.capacity ≤ bytes.size / 4
  · rw [if_pos henough, if_neg (by omega)]
  · rw [if_neg henough, if_pos (by omega), Nat.min_eq_left (by omega)]

theorem word_load (hread : dir.read name = .ok bytes) (hi : i < m.capacity) :
    (m.load dir name).2.word i =
      if 4 * i + 4 ≤ bytes.size then ByteImage.bigWord bytes i else 0 := by
  rw [load_of_read hread]
  by_cases hwhole : 4 * i + 4 ≤ bytes.size
  · have hword : (m.cleared.loadWords 0 bytes 0 (min (bytes.size / 4) m.capacity)).word (0 + i) =
        ByteImage.bigWord bytes i :=
      word_loadWords (Nat.min_le_right _ _) (Nat.zero_le i) (by omega)
    rw [if_pos hwhole, ← hword, Nat.zero_add]
  · have hbeyond : ∀ j, 0 ≤ j → j < 0 + min (bytes.size / 4) m.capacity →
        i % m.capacity ≠ (0 + j) % m.capacity := by
      intro j _ hj
      rw [Nat.mod_eq_of_lt hi, Nat.mod_eq_of_lt (by omega)]
      omega
    rw [if_neg hwhole]
    exact (word_loadWords_of_ne (m := m.cleared) hbeyond).trans (Store.get_zeros _ _)

/-- The whole words of a file come first, then zeros, and too few of them are reported. -/
theorem load_ok {result : Except BusError Unit} {after : BusMemory σ}
    (hread : dir.read name = .ok bytes) (hload : m.load dir name = (result, after)) :
    after.capacity = m.capacity ∧
      (∀ i < m.capacity,
        after.word i = if 4 * i + 4 ≤ bytes.size then ByteImage.bigWord bytes i else 0) ∧
      result = if m.capacity ≤ bytes.size / 4 then .ok ()
        else .error (.shortImage (bytes.size / 4) m.capacity) := by
  obtain rfl : (m.load dir name).2 = after := congrArg Prod.snd hload
  obtain rfl : (m.load dir name).1 = result := congrArg Prod.fst hload
  refine ⟨(sameBus_load m dir name).capacity, fun i hi => word_load hread hi, ?_⟩
  rw [load_of_read hread]

/-- Every word of a saved memory is in the image. -/
theorem save_ok (hsave : m.save dir name = .ok dir') :
    ∃ bytes, dir'.read name = .ok bytes ∧ bytes.size = 4 * m.capacity ∧
      ∀ i < m.capacity, ByteImage.bigWord bytes i = m.word i := by
  rw [save] at hsave
  split at hsave
  · next hwrite =>
    obtain rfl := Except.ok.inj hsave
    refine ⟨_, Directory.read_of_write hwrite, by simp, fun i hi => ?_⟩
    rw [ByteImage.bigWord_ofWordsBig (by simpa using hi), word, Nat.mod_eq_of_lt hi]
    simp [Store.toArray]
  · cases hsave

/-- A memory can be saved wherever a file can be written. -/
theorem exists_save_iff :
    (∃ dir', m.save dir name = .ok dir') ↔ ∃ dir', dir.write name #[] = .ok dir' := by
  rw [← dir.exists_write_iff name (ByteImage.ofWordsBig m.cells.toArray) #[], save]
  cases dir.write name (ByteImage.ofWordsBig m.cells.toArray) with
  | ok after => exact ⟨fun _ => ⟨after, rfl⟩, fun _ => ⟨after, rfl⟩⟩
  | error cause => exact ⟨nofun, nofun⟩

/-- Memories of any two sizes exchange their words through an image.

A memory can be saved wherever a file can be written. The memory that loads the image has its words
first and then zeros, and reports the image as too short if it is larger itself. Of any other file
the whole words are loaded in the same way, most significant byte first. Bytes that are loaded at an
address may end with a word that is not whole, which is filled up with zeros, and leave all words
alone that they do not meet. -/
theorem images_round_trip (m : BusMemory σ) (m' : BusMemory τ) (dir : Directory) (name : String) :
    ((∃ dir', m.save dir name = .ok dir') ↔ ∃ dir', dir.write name #[] = .ok dir') ∧
    (∀ dir', m.save dir name = .ok dir' →
      ∀ result after, m'.load dir' name = (result, after) →
        after.capacity = m'.capacity ∧
        (∀ i < m'.capacity, after.word i = if i < m.capacity then m.word i else 0) ∧
        result = if m'.capacity ≤ m.capacity then .ok ()
          else .error (.shortImage m.capacity m'.capacity)) ∧
    (∀ bytes, dir.read name = .ok bytes →
      ∀ result after, m'.load dir name = (result, after) →
        after.capacity = m'.capacity ∧
        (∀ i < m'.capacity,
          if 4 * i + 4 ≤ bytes.size then ByteImage.BigEndian bytes i (after.word i)
          else after.word i = 0) ∧
        result = if m'.capacity ≤ bytes.size / 4 then .ok ()
          else .error (.shortImage (bytes.size / 4) m'.capacity)) ∧
    ∀ addr bytes, (bytes.size + 3) / 4 ≤ m'.capacity →
      ∀ after, m'.loadBytes addr bytes = after →
        after.capacity = m'.capacity ∧
        (∀ k < (bytes.size + 3) / 4, ByteImage.BigEndian bytes k (after.word (addr + k))) ∧
        ∀ i, (∀ k < (bytes.size + 3) / 4, i % m'.capacity ≠ (addr + k) % m'.capacity) →
          after.word i = m'.word i := by
  refine ⟨exists_save_iff, ?saved, ?read, ?bytes⟩
  case saved =>
    intro dir' hsave result after hload
    obtain ⟨bytes, hread, hsize, himage⟩ := save_ok hsave
    obtain ⟨hcapacity, hwords, hresult⟩ := load_ok hread hload
    have hwhole : bytes.size / 4 = m.capacity := by omega
    refine ⟨hcapacity, fun i hi => ?_, by rw [hresult, hwhole]⟩
    rw [hwords i hi]
    by_cases hin : i < m.capacity
    · rw [if_pos (by omega), if_pos hin, himage i hin]
    · rw [if_neg (by omega), if_neg hin]
  case read =>
    intro bytes hread result after hload
    obtain ⟨hcapacity, hwords, hresult⟩ := load_ok hread hload
    refine ⟨hcapacity, fun i hi => ?_, hresult⟩
    rw [hwords i hi]
    by_cases hwhole : 4 * i + 4 ≤ bytes.size
    · rw [if_pos hwhole, if_pos hwhole]
      exact ByteImage.bigEndian_bigWord bytes i
    · rw [if_neg hwhole, if_neg hwhole]
  case bytes =>
    rintro addr bytes hfit after rfl
    rw [loadBytes, ByteImage.wordCount]
    refine ⟨(sameBus_loadWords ..).capacity, fun k hk => ?_, fun i hi => ?_⟩
    · exact ByteImage.bigEndian_iff.mpr (word_loadWords hfit (Nat.zero_le k) (by omega))
    · exact word_loadWords_of_ne fun j _ hj => hi j (by omega)

/-- Two words in a memory of four, a file with a byte too many, and bytes around the end. -/
theorem images_round_trip_small :
    let two : BusMemory Unit := (zeroed 2 1 1 ()).loadBytes 0 #[0x12, 0x34, 0x56, 0x78, 0x9A]
    let four : BusMemory Unit := zeroed 4 1 1 ()
    let dir := Directory.empty.addFile "mem.bin" #[1, 2, 3, 4, 5, 6, 7, 8, 9]
    (∃ dir', two.save dir "mem.bin" = .ok dir' ∧
      (four.load dir' "mem.bin").1 = .error (.shortImage 2 4) ∧
      (four.load dir' "mem.bin").2.word 0 = 0x12345678 ∧
      (four.load dir' "mem.bin").2.word 1 = 0x9A000000 ∧
      (four.load dir' "mem.bin").2.word 2 = 0) ∧
    (two.load dir "mem.bin").1 = .ok () ∧
    ByteImage.BigEndian #[1, 2, 3, 4, 5, 6, 7, 8, 9] 1 ((two.load dir "mem.bin").2.word 1) ∧
    ByteImage.BigEndian #[1, 2, 3, 4, 5, 6] 1 ((four.loadBytes 3 #[1, 2, 3, 4, 5, 6]).word 4) ∧
    (four.loadBytes 3 #[1, 2, 3, 4, 5, 6]).word 1 = 0 := by
  intro two four dir
  obtain ⟨hsave, hround, hread, hbytes⟩ := images_round_trip two four dir "mem.bin"
  have hcontent : dir.read "mem.bin" = .ok #[1, 2, 3, 4, 5, 6, 7, 8, 9] :=
    eq_ok_of_toOption (by decide +kernel)
  obtain ⟨dir', hdir'⟩ := hsave.mpr (Directory.exists_write_of_read hcontent #[])
  obtain ⟨-, hwords, hresult⟩ := hround dir' hdir' _ _ rfl
  obtain ⟨-, -, hfile, -⟩ := images_round_trip four two dir "mem.bin"
  obtain ⟨-, hfileWords, hfileResult⟩ := hfile _ hcontent _ _ rfl
  obtain ⟨-, hloaded, hkept⟩ := hbytes 3 #[1, 2, 3, 4, 5, 6] (by decide +kernel) _ rfl
  refine ⟨⟨dir', hdir', hresult, ?_, ?_, ?_⟩, hfileResult, ?_, ?_, ?_⟩
  · exact (hwords 0 (by decide +kernel)).trans (by decide +kernel)
  · exact (hwords 1 (by decide +kernel)).trans (by decide +kernel)
  · exact (hwords 2 (by decide +kernel)).trans (by decide +kernel)
  · exact hfileWords 1 (by decide +kernel)
  · exact hloaded 1 (by decide +kernel)
  · exact (hkept 1 (by decide +kernel)).trans (by decide +kernel)

end BusMemory

end SerialAta
