import SerialAta.Frame.Crc
import SerialAta.Storage.Cells
/-!
# SerialAta.Proofs.Frame.Checksum

**What the checksum detects.** The register of the checksum is followed bit by bit
(`advanceAll_eq_feed`), in the order in which a word is taken.

Two facts carry everything. The register is additive: a difference in the words is the same
difference in the register as these words alone would make from zero (`advanceAll_xor`). And up
to 32 bits bring the register to zero only if they are the bits in it (`feed_eq_zero_iff`). So
the checksum of a frame, taken after the frame, leaves zero (`advance_eq_zero_iff`), and a burst
of errors that is not longer than the register never does (`IsBurst.advanceAll_ne_zero`).
-/

namespace SerialAta.Crc

/-! ### Words as bits -/

/-- The bits of a word, the most significant first. -/
def bits (w : UInt32) : List Bool :=
  (List.range 32).map w.toBitVec.getMsbD

/-- The bits of a list of words, one word after the other. -/
def bitString (words : List UInt32) : List Bool :=
  words.flatMap bits

@[simp] theorem length_bits (w : UInt32) : (bits w).length = 32 := by
  rw [bits, List.length_map, List.length_range]

theorem getD_bits (w : UInt32) {i : Nat} (h : i < 32) :
    (bits w).getD i false = w.toBitVec.getMsbD i := by
  simp [bits, h]

theorem bits_xor (u v : UInt32) : bits (u ^^^ v) = List.zipWith (· ^^ ·) (bits u) (bits v) := by
  simp [bits, List.zipWith_map, List.zipWith_self]

/-- A word is known by its bits. -/
theorem eq_iff_getMsbD {u v : UInt32} :
    u = v ↔ ∀ i < 32, u.toBitVec.getMsbD i = v.toBitVec.getMsbD i := by
  refine ⟨fun h i _ => h ▸ rfl, fun h => ?_⟩
  exact UInt32.toBitVec_inj.mp (BitVec.eq_of_getMsbD_eq h)

theorem eq_zero_iff {w : UInt32} : w = 0 ↔ ∀ i < 32, w.toBitVec.getMsbD i = false := by
  simp only [eq_iff_getMsbD, UInt32.toBitVec_ofNat, BitVec.getMsbD_zero]

/-! ### The register after one bit -/

/-- The register after one bit of the message. -/
def push (crc : UInt32) (bit : Bool) : UInt32 := shift crc bit.toUInt32

/-- What is added to the register once it has moved on, by the bit that is fed back. -/
def taps (feedback : Bool) : UInt32 := if feedback then polynomial else 0

theorem taps_xor (a b : Bool) : taps (a ^^ b) = taps a ^^^ taps b := by
  cases a <;> cases b <;> decide

/-- The bit that leaves the register. -/
theorem shiftRight_eq_msb (crc : UInt32) : crc >>> 31 = crc.toBitVec.msb.toUInt32 := by
  refine UInt32.toNat_inj.mp ?_
  have hlt := crc.toNat_lt
  rw [BitVec.msb_eq_decide]
  simp only [UInt32.toNat_shiftRight, UInt32.reduceToNat, Nat.reduceMod,
    Nat.shiftRight_eq_div_pow, Nat.reducePow, UInt32.toNat_toBitVec, Nat.reduceSub]
  by_cases h : 2147483648 ≤ crc.toNat
  · have hquot : crc.toNat / 2147483648 = 1 := by omega
    rw [hquot, decide_eq_true h]
    rfl
  · have hquot : crc.toNat / 2147483648 = 0 := by omega
    rw [hquot, decide_eq_false h]
    rfl

theorem push_eq (crc : UInt32) (bit : Bool) :
    push crc bit = crc <<< 1 ^^^ taps (crc.toBitVec.msb ^^ bit) := by
  rw [push, shift, shiftRight_eq_msb]
  cases crc.toBitVec.msb <;> cases bit
  · exact UInt32.xor_zero.symm
  · rfl
  · rfl
  · exact UInt32.xor_zero.symm

theorem push_xor (r s : UInt32) (a b : Bool) :
    push (r ^^^ s) (a ^^ b) = push r a ^^^ push s b := by
  have hmsb : ((r ^^^ s).toBitVec.msb ^^ (a ^^ b)) =
      ((r.toBitVec.msb ^^ a) ^^ (s.toBitVec.msb ^^ b)) := by
    rw [UInt32.toBitVec_xor, BitVec.msb_xor]
    simp only [Bool.xor_assoc, Bool.xor_left_comm]
  rw [push_eq, push_eq, push_eq, hmsb, taps_xor, UInt32.shiftLeft_xor]
  ac_rfl

theorem getMsbD_push (crc : UInt32) (bit : Bool) (i : Nat) :
    (push crc bit).toBitVec.getMsbD i =
      (crc.toBitVec.getMsbD (i + 1) ^^
        ((crc.toBitVec.msb ^^ bit) && polynomial.toBitVec.getMsbD i)) := by
  have hshift : (crc <<< 1).toBitVec = crc.toBitVec <<< 1 := rfl
  have htaps : ∀ b, (taps b).toBitVec.getMsbD i = (b && polynomial.toBitVec.getMsbD i) := by
    intro b
    cases b with
    | false => exact BitVec.getMsbD_zero
    | true => rfl
  rw [push_eq, UInt32.toBitVec_xor, BitVec.getMsbD_xor, htaps, hshift, BitVec.getMsbD_shiftLeft]

/-! ### The register after many -/

/-- The register after bits of the message. -/
def feed (crc : UInt32) (bits : List Bool) : UInt32 := bits.foldl push crc

@[simp] theorem feed_nil (crc : UInt32) : feed crc [] = crc := rfl

@[simp] theorem feed_cons (crc : UInt32) (bit : Bool) (bits : List Bool) :
    feed crc (bit :: bits) = feed (push crc bit) bits := rfl

theorem feed_append (crc : UInt32) (us vs : List Bool) :
    feed crc (us ++ vs) = feed (feed crc us) vs :=
  List.foldl_append

theorem feed_xor (r s : UInt32) {us vs : List Bool} (h : us.length = vs.length) :
    feed (r ^^^ s) (List.zipWith (· ^^ ·) us vs) = feed r us ^^^ feed s vs := by
  induction us generalizing r s vs with
  | nil =>
      cases vs with
      | nil => rfl
      | cons v vs => cases h
  | cons u us ih =>
      cases vs with
      | nil => cases h
      | cons v vs =>
          rw [List.zipWith_cons_cons, feed_cons, push_xor, ih _ _ (Nat.succ.inj h)]
          rfl

/-- Up to 32 bits bring the register to zero exactly if they are the bits in it, with zeros
after them. -/
theorem feed_eq_zero_iff {crc : UInt32} {bits : List Bool} (h : bits.length ≤ 32) :
    feed crc bits = 0 ↔ ∀ i < 32, crc.toBitVec.getMsbD i = bits.getD i false := by
  induction bits generalizing crc with
  | nil => simp only [feed_nil, eq_zero_iff, List.getD_nil]
  | cons bit bits ih =>
      rw [List.length_cons] at h
      have hlast : bits.getD 31 false = false := by
        rw [List.getD_eq_getElem?_getD, List.getElem?_eq_none (by omega)]
        rfl
      have hlow : crc.toBitVec.getMsbD 32 = false := BitVec.getMsbD_of_ge _ _ (Nat.le_refl 32)
      have hodd : polynomial.toBitVec.getMsbD 31 = true := by decide
      rw [feed_cons, ih (by omega)]
      simp only [getMsbD_push]
      constructor
      · intro hbits
        -- The lowest bit of the register tells whether the polynomial was added.
        have hback := hbits 31 (by decide)
        rw [hlow, hodd, hlast, Bool.false_xor, Bool.and_true] at hback
        intro i hi
        cases i with
        | zero =>
            rw [BitVec.msb_eq_getMsbD_zero] at hback
            simpa using hback
        | succ i =>
            have hbit := hbits i (by omega)
            rwa [hback, Bool.false_and, Bool.xor_false] at hbit
      · intro hbits i hi
        have hback : (crc.toBitVec.msb ^^ bit) = false := by
          rw [BitVec.msb_eq_getMsbD_zero, hbits 0 (by decide), List.getD_cons_zero, Bool.xor_self]
        rw [hback, Bool.false_and, Bool.xor_false]
        rcases Nat.lt_or_eq_of_le (Nat.succ_le_of_lt hi) with hi | hi
        · exact hbits (i + 1) hi
        · obtain rfl : i = 31 := Nat.succ.inj hi
          rw [hlow, hlast]

/-- Zeros do not bring the register to zero, however many. -/
theorem feed_zeros_eq_zero_iff {crc : UInt32} {bits : List Bool} (h : ∀ b ∈ bits, b = false) :
    feed crc bits = 0 ↔ crc = 0 := by
  induction bits generalizing crc with
  | nil => rfl
  | cons bit bits ih =>
      obtain rfl := h bit (List.mem_cons_self ..)
      have hone : push crc false = 0 ↔ crc = 0 := by
        have hshort : [false].length ≤ 32 := by decide
        have hfeed : push crc false = feed crc [false] := rfl
        rw [hfeed, feed_eq_zero_iff hshort, eq_zero_iff]
        refine forall₂_congr fun i _ => ?_
        cases i <;> rfl
      rw [feed_cons, ih fun b hb => h b (List.mem_cons_of_mem _ hb), hone]

/-! ### The register after words -/

/-- The bit that the register takes when `n` of the word are left after it. -/
theorem shiftRight_and_one (w : UInt32) {n : Nat} (hn : n < 32) :
    (w >>> n.toUInt32) &&& 1 = (w.toBitVec.getMsbD (32 - (n + 1))).toUInt32 := by
  have hbit : w.toBitVec.getMsbD (32 - (n + 1)) = decide (w.toNat / 2 ^ n % 2 = 1) := by
    have hindex : 32 - 1 - (32 - (n + 1)) = n := by omega
    rw [BitVec.getMsbD, decide_eq_true (by omega), Bool.true_and, hindex, BitVec.getLsbD,
      UInt32.toNat_toBitVec, Nat.testBit_eq_decide_div_mod_eq]
  have hmod : n.toUInt32.toNat % 32 = n := by
    show n % 2 ^ 32 % 32 = n
    omega
  refine UInt32.toNat_inj.mp ?_
  rw [UInt32.toNat_and, UInt32.toNat_shiftRight, hmod, Nat.shiftRight_eq_div_pow,
    UInt32.toNat_one, Nat.and_one_is_mod, hbit]
  rcases Nat.mod_two_eq_zero_or_one (w.toNat / 2 ^ n) with h | h
  · rw [h]
    rfl
  · rw [h]
    rfl

theorem feedBits_eq_feed (w : UInt32) {n : Nat} (hn : n ≤ 32) (crc : UInt32) :
    feedBits w n crc = feed crc ((bits w).drop (32 - n)) := by
  induction n generalizing crc with
  | zero =>
      rw [feedBits, Nat.sub_zero, List.drop_of_length_le (Nat.le_of_eq (length_bits w)), feed_nil]
  | succ n ih =>
      have hindex : 32 - (n + 1) < (bits w).length := by
        rw [length_bits]
        omega
      have hnext : 32 - (n + 1) + 1 = 32 - n := by omega
      have hbit : (bits w)[32 - (n + 1)] = w.toBitVec.getMsbD (32 - (n + 1)) := by
        simp only [bits, List.getElem_map, List.getElem_range]
      rw [feedBits, ih (by omega), List.drop_eq_getElem_cons hindex, feed_cons, hnext, hbit, push,
        shiftRight_and_one w hn]

theorem advance_eq_feed (crc w : UInt32) : advance crc w = feed crc (bits w) :=
  feedBits_eq_feed w (Nat.le_refl 32) crc

theorem advanceAll_eq_feed (crc : UInt32) (words : List UInt32) :
    advanceAll crc words = feed crc (bitString words) := by
  induction words generalizing crc with
  | nil => rfl
  | cons w words ih =>
      rw [advanceAll_cons, ih, advance_eq_feed, ← feed_append]
      rfl

theorem advance_xor (r s u v : UInt32) :
    advance (r ^^^ s) (u ^^^ v) = advance r u ^^^ advance s v := by
  have hlength : (bits u).length = (bits v).length := by rw [length_bits, length_bits]
  rw [advance_eq_feed, advance_eq_feed, advance_eq_feed, bits_xor, feed_xor r s hlength]

/-- **The register is additive**, in its first value and in the words together. -/
theorem advanceAll_xor (r s : UInt32) {us vs : List UInt32} (h : us.length = vs.length) :
    advanceAll (r ^^^ s) (List.zipWith (· ^^^ ·) us vs) = advanceAll r us ^^^ advanceAll s vs := by
  induction us generalizing r s vs with
  | nil =>
      cases vs with
      | nil => rfl
      | cons v vs => cases h
  | cons u us ih =>
      cases vs with
      | nil => cases h
      | cons v vs =>
          rw [List.zipWith_cons_cons, advanceAll_cons, advance_xor, ih _ _ (Nat.succ.inj h)]
          rfl

/-- The one word that brings the register to zero is the register itself. -/
theorem advance_eq_zero_iff {crc w : UInt32} : advance crc w = 0 ↔ crc = w := by
  rw [advance_eq_feed, feed_eq_zero_iff (Nat.le_of_eq (length_bits w)), eq_iff_getMsbD]
  exact forall₂_congr fun i hi => by rw [getD_bits w hi]

/-- A frame and its checksum leave zero. -/
theorem advanceAll_ofWords (words : List UInt32) :
    advanceAll seed (words ++ [ofWords words]) = 0 := by
  rw [advanceAll_append, advanceAll_cons, advanceAll_nil]
  exact advance_eq_zero_iff.mpr rfl

/-! ### Bursts -/

/-- A burst of errors: some bits are wrong, and all that are lie among 32 bits in a row. -/
structure IsBurst (error : List UInt32) : Prop where
  ne_zero : ∃ word ∈ error, word ≠ 0
  within : ∃ start, ∀ i, (bitString error)[i]? = some true → start ≤ i ∧ i < start + 32

theorem eq_zero_of_bits {w : UInt32} (h : ∀ b ∈ bits w, b = false) : w = 0 := by
  refine eq_zero_iff.mpr fun i hi => h _ ?_
  exact List.mem_map.mpr ⟨i, List.mem_range.mpr hi, rfl⟩

theorem getElem?_bitString (words : List UInt32) (i : Nat) :
    (bitString words)[i]? = words[i / 32]?.bind fun w => (bits w)[i % 32]? :=
  getElem?_flatMap_of_length (by decide) length_bits words i

/-- Errors in a single word are a burst. -/
theorem isBurst_single {word : UInt32} (h : word ≠ 0) (m n : Nat) :
    IsBurst (List.replicate m 0 ++ word :: List.replicate n 0) := by
  refine ⟨⟨word, by simp, h⟩, 32 * m, fun i hi => ?_⟩
  rw [getElem?_bitString] at hi
  obtain ⟨w, hw, hbit⟩ := Option.bind_eq_some_iff.mp hi
  -- Only in the one word that is not zero can a bit be set.
  have hplace : i / 32 = m := by
    refine Decidable.byContradiction fun hne => ?_
    have hzero : w = 0 := by
      rw [List.getElem?_append, List.length_replicate] at hw
      split at hw
      · exact List.eq_of_mem_replicate (List.mem_of_getElem? hw)
      · obtain ⟨k, hk⟩ : ∃ k, i / 32 - m = k + 1 := ⟨i / 32 - m - 1, by omega⟩
        rw [hk, List.getElem?_cons_succ] at hw
        exact List.eq_of_mem_replicate (List.mem_of_getElem? hw)
    have hbits : bits w = List.replicate 32 false := by rw [hzero]; rfl
    rw [hbits] at hbit
    cases List.eq_of_mem_replicate (List.mem_of_getElem? hbit)
  omega

/-- Bits of which only some in a row are set are these, with nothing before them and after. -/
theorem exists_window {bits : List Bool} {start n : Nat}
    (h : ∀ i, bits[i]? = some true → start ≤ i ∧ i < start + n) :
    ∃ before window later, bits = before ++ (window ++ later) ∧ window.length ≤ n ∧
      (∀ b ∈ before, b = false) ∧ ∀ b ∈ later, b = false := by
  refine ⟨bits.take start, (bits.drop start).take n, (bits.drop start).drop n, ?_,
    List.length_take_le .., ?_, ?_⟩
  · rw [List.take_append_drop, List.take_append_drop]
  · intro b hb
    obtain ⟨i, hi⟩ := List.mem_iff_getElem?.mp hb
    rw [List.getElem?_take] at hi
    cases b with
    | false => rfl
    | true =>
        split at hi
        · have := (h i hi).1
          omega
        · cases hi
  · intro b hb
    obtain ⟨i, hi⟩ := List.mem_iff_getElem?.mp hb
    rw [List.getElem?_drop, List.getElem?_drop] at hi
    cases b with
    | false => rfl
    | true =>
        have := (h _ hi).2
        omega

/-- A burst alone does not leave zero. -/
theorem IsBurst.advanceAll_ne_zero {error : List UInt32} (h : IsBurst error) :
    advanceAll 0 error ≠ 0 := by
  obtain ⟨⟨word, hmem, hne⟩, start, hwithin⟩ := h
  obtain ⟨before, window, later, hsplit, hlength, hbefore, hlater⟩ := exists_window hwithin
  intro hzero
  rw [advanceAll_eq_feed, hsplit, feed_append, feed_append, feed_zeros_eq_zero_iff hlater,
    (feed_zeros_eq_zero_iff hbefore).mpr rfl, feed_eq_zero_iff hlength] at hzero
  have hwindow : ∀ b ∈ window, b = false := by
    intro b hb
    obtain ⟨i, hlt, rfl⟩ := List.mem_iff_getElem.mp hb
    have hbit := hzero i (Nat.lt_of_lt_of_le hlt hlength)
    rw [List.getD_eq_getElem?_getD, List.getElem?_eq_getElem hlt] at hbit
    exact hbit.symm.trans BitVec.getMsbD_zero
  -- So no bit is set at all, although one word is not zero.
  refine hne (eq_zero_of_bits fun b hb => ?_)
  have hall : b ∈ before ++ (window ++ later) := hsplit ▸ List.mem_flatMap.mpr ⟨word, hmem, hb⟩
  rcases List.mem_append.mp hall with hb | hb
  · exact hbefore b hb
  · rcases List.mem_append.mp hb with hb | hb
    · exact hwindow b hb
    · exact hlater b hb

end SerialAta.Crc
