import SerialAta.Proofs.Frame.Period
import SerialAta.Proofs.Link.Damage
/-!
# SerialAta.Proofs.Link.BitPairs

**The link notices any two wrong bits** (`Link.rejects_bit_pairs`), however far apart, in all frames
of less than 2³² bits.

A wrong bit on the wire adds a power of `x` to what the register holds after the trailer
(`WireCoder.residue_flipBit`). The exponent depends on its place only, and different places have
different exponents, which are nearer to one another than the frame is long
(`WireCoder.weight_ne`). Of an intact frame the register holds nothing, so after two wrong bits it
holds the sum of two powers, and that is zero only for powers as far apart as the period of the
checksum.
-/

namespace SerialAta

/-! ### Errors in one word -/

namespace Crc

/-- An error in one word makes the difference that it would make alone. -/
theorem residue_advanceAll_modify (crc : UInt32) {words : List UInt32} {i : Nat}
    (hi : i < words.length) (error : UInt32) :
    residue (advanceAll crc (words.modify i (· ^^^ error))) =
      residue (advanceAll crc words) + residue error * root ^ (32 * (words.length - i)) := by
  induction words generalizing crc i with
  | nil => cases hi
  | cons w words ih =>
      cases i with
      | succ i =>
          have hi := Nat.lt_of_succ_lt_succ hi
          rw [List.modify_succ_cons, advanceAll_cons, advanceAll_cons, ih _ hi, List.length_cons,
            Nat.add_sub_add_right]
      | zero =>
          have hfactors : 32 * (words.length + 1) = 32 + 32 * words.length := by omega
          rw [List.modify_zero_cons, advanceAll_cons, advanceAll_cons, residue_advanceAll,
            residue_advanceAll, residue_advance, residue_advance, residue_xor, List.length_cons,
            Nat.sub_zero, hfactors, pow_add]
          ring

theorem residue_bit {b : Nat} (hb : b < 32) : residue (1 <<< b.toUInt32) = root ^ b := by
  have hfeed : ∀ b < 32, (1 : UInt32) <<< b.toUInt32 = feed 1 (List.replicate b false) := by decide
  rw [hfeed b hb, residue_feed_zeros, residue_one, one_mul]

end Crc

namespace WireCoder

theorem takeWords_modify (c : WireCoder) (wire : List UInt32) (i : Nat) (error : UInt32) :
    (c.takeWords (wire.modify i (· ^^^ swapBytes error))).1 =
      (c.takeWords wire).1.modify i (· ^^^ error) := by
  induction wire generalizing c i with
  | nil => cases i <;> rfl
  | cons w wire ih =>
      cases i with
      | zero =>
          rw [List.modify_zero_cons, takeWords_cons, takeWords_cons, takeWord_disturbed,
            List.modify_zero_cons]
      | succ i =>
          rw [List.modify_succ_cons, takeWords_cons, takeWords_cons, List.modify_succ_cons, ih]

/-! ### Errors in one bit -/

/-- Wire words with one bit flipped; bits are counted from the lowest of the first word on. -/
def flipBit (wire : List UInt32) (p : Nat) : List UInt32 :=
  wire.modify (p / 32) (· ^^^ (1 <<< (p % 32).toUInt32))

/-- The place that a bit of a wire word has in host order. -/
def hostBit (b : Nat) : Nat := 8 * (3 - b / 8) + b % 8

/-- The exponent with which a bit counts that is wrong in a frame of `n` wire words. -/
def weight (n p : Nat) : Nat := 32 * (n - p / 32) + hostBit (p % 32)

@[simp] theorem length_flipBit (wire : List UInt32) (p : Nat) :
    (flipBit wire p).length = wire.length := by
  rw [flipBit, List.length_modify]

theorem residue_flipBit {wire : List UInt32} {p : Nat} (hp : p < 32 * wire.length) :
    Crc.residue (residue (flipBit wire p)) =
      Crc.residue (residue wire) + Crc.root ^ weight wire.length p := by
  have hswap : ∀ b < 32, (1 : UInt32) <<< b.toUInt32 = swapBytes (1 <<< (hostBit b).toUInt32) := by
    decide
  have hbit : p % 32 < 32 := Nat.mod_lt _ (by decide)
  have hhost : hostBit (p % 32) < 32 := by
    unfold hostBit
    omega
  have hword : p / 32 < (initial.takeWords wire).1.length := by
    rw [length_takeWords]
    omega
  rw [residue, flipBit, hswap _ hbit, takeWords_modify,
    Crc.residue_advanceAll_modify _ hword, Crc.residue_bit hhost, ← pow_add, length_takeWords,
    weight, Nat.add_comm (hostBit _)]
  rfl

/-- Different bits count with different exponents, nearer to one another than the frame is long. -/
theorem weight_ne {n p q : Nat} (hp : p < 32 * n) (hq : q < 32 * n) (hne : p ≠ q) :
    weight n p ≠ weight n q ∧ weight n p < weight n q + 32 * n := by
  unfold weight hostBit
  omega

end WireCoder

namespace Link

variable {l : Link}

/-- **The link notices any two wrong bits**, in the data of a frame, in its checksum or one in each:
it rejects the frame and keeps nothing of it, as long as frame and checksum have less than 2³² bits
together. Frames of up to 2049 words, the longest that a FIS can be, have not nearly as many. -/
theorem rejects_bit_pairs (h : l.state = .rcvChkRdy) (frame : Frame)
    (hlength : 32 * (frame.length + 1) < UInt32.size) {p q : Nat}
    (hp : p < 32 * (frame.length + 1)) (hq : q < 32 * (frame.length + 1)) (hne : p ≠ q) :
    l.Rejects (WireCoder.flipBit (WireCoder.flipBit (WireCoder.wireForm frame) p) q) := by
  obtain ⟨hweight, hpq⟩ := WireCoder.weight_ne hp hq hne
  obtain ⟨-, hqp⟩ := WireCoder.weight_ne hq hp hne.symm
  have hpower : Crc.root ^ WireCoder.weight (frame.length + 1) p ≠
      Crc.root ^ WireCoder.weight (frame.length + 1) q := by
    rcases Nat.lt_or_gt_of_ne hweight with hlt | hlt
    · exact Crc.root_pow_ne hlt (by omega)
    · exact (Crc.root_pow_ne hlt (by omega)).symm
  rw [← WireCoder.length_wireForm] at hp hq hpower
  refine rejects_of_residue h fun hzero => hpower ?_
  have hsum := congrArg Crc.residue hzero
  rw [WireCoder.residue_flipBit (by rwa [WireCoder.length_flipBit]), WireCoder.residue_flipBit hp,
    WireCoder.residue_wireForm, WireCoder.length_flipBit, Crc.residue_zero, zero_add] at hsum
  rw [eq_neg_of_add_eq_zero_left hsum, ZModModule.neg_eq_self]

/-- The first bit and the last one of the longest frame with its checksum. -/
theorem rejects_bit_pairs_longest :
    let l : Link := { Link.new .standard with state := .rcvChkRdy, received := [[1, 2]] }
    let frame : Frame := List.replicate 2049 0x46
    l.state = .rcvChkRdy ∧ 32 * (frame.length + 1) < UInt32.size ∧
      l.Rejects (WireCoder.flipBit (WireCoder.flipBit (WireCoder.wireForm frame) 0) 65599) := by
  intro l frame
  have hframe : frame.length = 2049 := List.length_replicate
  have hlength : 32 * (frame.length + 1) < UInt32.size := by
    rw [hframe]
    decide
  exact ⟨rfl, hlength, rejects_bit_pairs rfl frame hlength (by omega) (by omega) (by decide)⟩

end Link

end SerialAta
