import SerialAta.Proofs.Bus.Queue
/-!
# SerialAta.Proofs.Bus.ByteSelects

**A write touches the bytes that it selects and no others** (`BusMemory.writes_selected_bytes`).

Selects run against the words: the highest four bits that a beat uses are those of its first word,
and in each four the lowest is for the lowest byte. A select spreads to the mask of a byte
(`byte_byteMask`), and under the mask a word is merged byte by byte (`byte_merge`).

The words of a beat are told by their indices in the memory (`BusMemory.beatIndices`). Width and
size of the memory are powers of two and the width is no larger, so no beat wraps around in its
middle or meets itself, and two beats have all words in common or none.
-/

namespace SerialAta

/-! ### Bytes under a mask -/

theorem getLsbD_byte (w : UInt32) {j t : Nat} (hj : j < 4) (ht : t < 8) :
    (ByteImage.byte w j).toBitVec.getLsbD t = w.toBitVec.getLsbD (8 * j + t) := by
  have hshift : (8 * j).toUInt32.toNat % 32 = 8 * j := by
    have hnat : (8 * j).toUInt32.toNat = 8 * j % 4294967296 := rfl
    omega
  rw [ByteImage.byte, BitVec.getLsbD, UInt8.toNat_toBitVec, UInt32.toNat_toUInt8,
    UInt32.toNat_shiftRight, hshift, Nat.testBit_mod_two_pow, decide_eq_true ht, Bool.true_and,
    Nat.testBit_shiftRight]
  rfl

namespace BusMemory

/-- A byte under a mask that is set or clear in all of it. -/
theorem byte_merge {mask : UInt32} {j : Nat} (hj : j < 4) {selected : Bool}
    (hmask : ByteImage.byte mask j = if selected then 0xFF else 0) (value old : UInt32) :
    ByteImage.byte (merge mask value old) j =
      if selected then ByteImage.byte value j else ByteImage.byte old j := by
  refine UInt8.toBitVec_inj.mp (BitVec.eq_of_getLsbD_eq fun t ht => ?_)
  have hbit : mask.toBitVec.getLsbD (8 * j + t) = selected := by
    have hset : ∀ t < 8, (0xFF : UInt8).toBitVec.getLsbD t = true := by decide
    rw [← getLsbD_byte mask hj ht, hmask]
    cases selected with
    | true => exact hset t ht
    | false => exact BitVec.getLsbD_zero
  rw [getLsbD_byte _ hj ht, merge, UInt32.toBitVec_or, UInt32.toBitVec_and, UInt32.toBitVec_and,
    UInt32.toBitVec_not, BitVec.getLsbD_or, BitVec.getLsbD_and, BitVec.getLsbD_and,
    BitVec.getLsbD_not, hbit, decide_eq_true (by omega), Bool.true_and]
  cases selected with
  | true =>
      rw [Bool.not_true, Bool.and_false, Bool.false_or, Bool.and_true]
      exact (getLsbD_byte _ hj ht).symm
  | false =>
      rw [Bool.not_false, Bool.and_true, Bool.and_false, Bool.or_false]
      exact (getLsbD_byte _ hj ht).symm

/-- The mask of four select bits has all bits of the bytes that they choose. -/
theorem byte_byteMask (sel : UInt64) {width k j : Nat} (hwidth : width ≤ maxBeatWords)
    (hj : j < 4) : ByteImage.byte (byteMask (selectOf sel width k)) j =
      if sel.toNat.testBit (4 * (width - 1 - k) + j) then 0xFF else 0 := by
  have hmask : ∀ n < 16, ∀ j < 4,
      ByteImage.byte (byteMask n.toUInt64) j = if n.testBit j then 0xFF else 0 := by
    decide
  have hshift : (4 * (width - 1 - k)).toUInt64.toNat % 64 = 4 * (width - 1 - k) := by
    have hnat : (4 * (width - 1 - k)).toUInt64.toNat = 4 * (width - 1 - k) % 18446744073709551616 :=
      rfl
    unfold maxBeatWords at hwidth
    omega
  have hselect : (selectOf sel width k).toNat = sel.toNat >>> (4 * (width - 1 - k)) % 16 := by
    rw [selectOf, UInt64.toNat_and, UInt64.toNat_shiftRight, hshift]
    exact Nat.and_two_pow_sub_one_eq_mod _ 4
  have hself : selectOf sel width k = (selectOf sel width k).toNat.toUInt64 :=
    UInt64.ofNat_toNat.symm
  have hbit : (sel.toNat >>> (4 * (width - 1 - k)) % 16).testBit j =
      sel.toNat.testBit (4 * (width - 1 - k) + j) := by
    refine (Nat.testBit_mod_two_pow _ 4 j).trans ?_
    rw [decide_eq_true hj, Bool.true_and, Nat.testBit_shiftRight]
  rw [hself, hselect, hmask _ (Nat.mod_lt _ (by decide)) j hj, hbit]

/-! ### The words of a beat -/

variable {σ : Type} {m : BusMemory σ}

/-- The indices of the words of a beat, in order. -/
def beatIndices (m : BusMemory σ) (address : Nat) : List Nat :=
  (List.range m.width).map fun k => (address * m.width + k) % m.capacity

theorem Divided.index_eq_iff (hm : m.Divided) {address k i : Nat} (hk : k < m.width) :
    (address * m.width + k) % m.capacity = i % m.capacity ↔
      address % (m.capacity / m.width) = i / m.width % (m.capacity / m.width) ∧
        i % m.width = k := by
  have hindex := @beat_index_eq_iff m.width (m.capacity / m.width) address k i hk
  rwa [Nat.mul_div_cancel' hm.dvd] at hindex

/-- A beat does not meet itself. -/
theorem Divided.nodup_beatIndices (hm : m.Divided) (address : Nat) :
    (m.beatIndices address).Nodup := by
  refine List.pairwise_map.mpr (List.nodup_range.imp_of_mem fun hk hk' hne heq => hne ?_)
  rw [hm.index_eq_iff (List.mem_range.mp hk), beat_index_mod (List.mem_range.mp hk')] at heq
  exact heq.2.symm

/-- Addresses that differ by a multiple of the number of beats mean the same beat. -/
theorem Divided.beatIndices_eq (hm : m.Divided) {a a' : Nat}
    (h : a % (m.capacity / m.width) = a' % (m.capacity / m.width)) :
    m.beatIndices a = m.beatIndices a' := by
  refine List.map_congr_left fun k hk => ?_
  have hk := List.mem_range.mp hk
  rw [hm.index_eq_iff hk, beat_index_div hk, beat_index_mod hk]
  exact ⟨h, rfl⟩

/-- Other addresses mean beats that have no word in common. -/
theorem Divided.not_mem_beatIndices (hm : m.Divided) {a a' : Nat}
    (h : a % (m.capacity / m.width) ≠ a' % (m.capacity / m.width)) {i : Nat}
    (hi : i ∈ m.beatIndices a) : i ∉ m.beatIndices a' := by
  intro hi'
  obtain ⟨k, hk, rfl⟩ := List.mem_map.mp hi
  obtain ⟨k', hk', heq⟩ := List.mem_map.mp hi'
  rw [hm.index_eq_iff (List.mem_range.mp hk'), beat_index_div (List.mem_range.mp hk)] at heq
  exact h heq.1.symm

/-! ### Writes -/

variable {req : BusRequest}

/-- A byte of a word of the beat that a request writes. -/
theorem byte_written {width capacity k j : Nat} (hwidth : width ≤ maxBeatWords) (hk : k < width)
    (hj : j < 4) (words : Nat → UInt32) :
    ByteImage.byte (req.written width capacity words (req.addr.toNat * width + k)) j =
      if k < req.data.length ∧ req.sel.toNat.testBit (4 * (width - 1 - k) + j) then
        ByteImage.byte (req.data.getD k 0) j
      else ByteImage.byte (words (req.addr.toNat * width + k)) j := by
  rw [BusRequest.written, beat_index_div hk, beat_index_mod hk, if_pos rfl,
    List.getD_eq_getElem?_getD]
  by_cases hdata : k < req.data.length
  · simp only [List.getElem?_eq_getElem hdata, hdata, true_and, Option.getD_some]
    exact byte_merge hj (byte_byteMask req.sel hwidth hj) _ _
  · simp only [List.getElem?_eq_none (Nat.le_of_not_lt hdata), hdata, false_and, if_false]

/-- Words of other beats are left as they are. -/
theorem Divided.written_of_not_mem (hm : m.Divided) {i : Nat}
    (hi : i % m.capacity ∉ m.beatIndices req.addr.toNat) (words : Nat → UInt32) :
    req.written m.width m.capacity words i = words i := by
  have hplace : i % m.width < m.width := Nat.mod_lt _ hm.width_pos
  rw [BusRequest.written, if_neg]
  intro hbeat
  refine hi (List.mem_map.mpr ⟨i % m.width, List.mem_range.mpr hplace, ?_⟩)
  exact (hm.index_eq_iff hplace).mpr ⟨hbeat, rfl⟩

variable [StallPolicy σ] {out out' : List UInt32} {reply : BusReply} {m' : BusMemory σ}

/-- The memory after a step in which a write is accepted. -/
theorem step_of_write (hm : m.Divided) (hstep : m.step req out = (reply, out', m'))
    (hcyc : req.cyc = true) (hstb : req.stb = true) (hwe : req.we = true)
    (haccepted : reply.stall = false) :
    m'.width = m.width ∧ m'.capacity = m.capacity ∧
      m'.word = req.written m.width m.capacity m.word := by
  have hwaited : (m.waited req out).Divided := hm.of_eq rfl rfl
  rw [step_of_cyc hcyc] at hstep
  cases hstep
  have hdecision : (m.decision req).1 = false := haccepted
  rw [hstb, hdecision, Bool.not_false, Bool.and_self, if_pos rfl]
  refine ⟨width_accept .., capacity_accept .., funext fun i => ?_⟩
  rw [word_accept hwaited, if_pos hwe]
  rfl

/-- **A write touches the bytes that it selects and no others.** Of the words of its beat it changes
those that it has data for, and in each the bytes of which the select bit is set: bit `j` of the
four of word `k`, which are the lowest four for the last word of the beat and the next four for each
word before it. All other bytes are as they were. The words of a beat are different ones. Two beats
have the same words if their addresses differ by a multiple of the number of beats, and no word in
common otherwise. -/
theorem writes_selected_bytes (hm : m.Reached) (hstep : m.step req out = (reply, out', m'))
    (hcyc : req.cyc = true) (hstb : req.stb = true) (hwe : req.we = true)
    (haccepted : reply.stall = false) :
    let base := req.addr.toNat * m.width
    m'.width = m.width ∧ m'.capacity = m.capacity ∧
    (∀ k < m.width, ∀ j < 4, ByteImage.byte (m'.word (base + k)) j =
      if k < req.data.length ∧ req.sel.toNat.testBit (4 * (m.width - 1 - k) + j) then
        ByteImage.byte (req.data.getD k 0) j
      else ByteImage.byte (m.word (base + k)) j) ∧
    (∀ i, i % m.capacity ∉ m.beatIndices req.addr.toNat → m'.word i = m.word i) ∧
    (∀ a, (m.beatIndices a).Nodup) ∧
    m.capacity.isPowerOfTwo ∧ m.width ∣ m.capacity ∧
    ∀ a a', if a % (m.capacity / m.width) = a' % (m.capacity / m.width) then
        m.beatIndices a = m.beatIndices a'
      else ∀ i ∈ m.beatIndices a, i ∉ m.beatIndices a' := by
  intro base
  obtain ⟨hsized, words, due, howes⟩ := hm.owes
  have hdivided := howes.divided
  obtain ⟨hwidth, hcapacity, hword⟩ := step_of_write hdivided hstep hcyc hstb hwe haccepted
  refine ⟨hwidth, hcapacity, fun k hk j hj => ?_, fun i hi => ?_, hdivided.nodup_beatIndices,
    hsized.capacity, hdivided.dvd, fun a a' => ?_⟩
  · rw [hword]
    exact byte_written hsized.width_le hk hj m.word
  · rw [hword]
    exact hdivided.written_of_not_mem hi m.word
  · split
    · next hsame => exact hdivided.beatIndices_eq hsame
    · next hother => exact fun i hi => hdivided.not_mem_beatIndices hother hi

/-- Bytes 0 and 2 of the first word of a beat that is met behind the end of the memory. The second
word has selects, but no data. -/
theorem writes_selected_bytes_short :
    let m : BusMemory RandomStalls :=
      ((zeroed 16 3 2 (.ofSeed 0 0)).setWord 0 0xAABBCCDD).setWord 1 0xEEFF0011
    let req : BusRequest :=
      { cyc := true, stb := true, we := true, addr := 8, data := [0x11223344], sel := 0x5F }
    let m' := (m.step req []).2.2
    m.Reached ∧ (m.step req []).1.stall = false ∧
      ByteImage.byte (m'.word 16) 2 = 0x22 ∧ ByteImage.byte (m'.word 16) 3 = 0xAA ∧
      ByteImage.byte (m'.word 17) 3 = 0xEE ∧ m'.word 2 = m.word 2 := by
  intro m req m'
  have hnew : BusMemory.new { BusParameters.standard with
      words := 16, delay := 3, wordsPerBeat := 2 } (RandomStalls.ofSeed 0 0) =
      .ok (.zeroed 16 3 2 (.ofSeed 0 0)) :=
    new_of_valid (by decide) (by decide) _
  have hm : m.Reached := ((Reached.new hnew).setWord 0 0xAABBCCDD).setWord 1 0xEEFF0011
  have hstall : (m.step req []).1.stall = false := by decide +kernel
  have hstep : m.step req [] = ((m.step req []).1, (m.step req []).2.1, m') := rfl
  obtain ⟨-, -, hbyte, hother, -⟩ := writes_selected_bytes hm hstep rfl rfl rfl hstall
  refine ⟨hm, hstall, ?_, ?_, ?_, ?_⟩
  · exact (hbyte 0 (by decide) 2 (by decide)).trans (by decide +kernel)
  · exact (hbyte 0 (by decide) 3 (by decide)).trans (by decide +kernel)
  · exact (hbyte 1 (by decide) 3 (by decide)).trans (by decide +kernel)
  · exact hother 2 (by decide +kernel)

end BusMemory

end SerialAta
