import Mathlib.Algebra.Field.ZMod
import Mathlib.RingTheory.AdjoinRoot
import SerialAta.Proofs.Frame.Checksum
/-!
# SerialAta.Proofs.Frame.Remainder

**The checksum is polynomial division** (`Crc.division_by_generator`). A word is read as a
polynomial over the field of two elements, each bit the coefficient of its power of `x`. Then the
register holds the remainder of everything that it has taken, in that reading, by the generator.

The steps of the register are followed in the ring of residues, `AdjoinRoot generator`. Moving on
by one bit is multiplication by `x` there (`residue_push_false`), and a word is taken by adding it
to the register and moving on by 32 bits (`advance_eq`), so a word counts with a factor `x ^ 32` for
itself and each word after it (`residue_advanceAll`). A register is shorter than the generator,
hence known by its residue (`residue_injective`), and it is the remainder.
-/

namespace SerialAta.Crc

open Polynomial

/-! ### Words as polynomials -/

/-- A bit as an element of the field of two elements. -/
def coefficient (bit : Bool) : ZMod 2 := if bit then 1 else 0

theorem coefficient_xor (a b : Bool) : coefficient (a ^^ b) = coefficient a + coefficient b := by
  cases a <;> cases b <;> decide

theorem coefficient_injective : Function.Injective coefficient := by
  decide

/-- A word as a polynomial: its bit `i` is the coefficient of `x ^ i`. -/
noncomputable def poly (w : UInt32) : (ZMod 2)[X] :=
  ∑ i ∈ Finset.range 32, monomial i (coefficient (w.toBitVec.getLsbD i))

theorem coeff_poly (w : UInt32) (i : Nat) :
    (poly w).coeff i = coefficient (w.toBitVec.getLsbD i) := by
  rw [poly, finsetSum_coeff]
  simp only [coeff_monomial, Finset.sum_ite_eq', Finset.mem_range]
  split
  · rfl
  · next hi => rw [BitVec.getLsbD_of_ge _ _ (Nat.le_of_not_lt hi), coefficient, if_neg (by decide)]

theorem poly_injective : Function.Injective poly := by
  intro u v h
  refine UInt32.toBitVec_inj.mp (BitVec.eq_of_getLsbD_eq fun i _ => coefficient_injective ?_)
  rw [← coeff_poly, ← coeff_poly, h]

@[simp] theorem poly_zero : poly 0 = 0 := by
  ext i
  rw [coeff_poly, coeff_zero, UInt32.toBitVec_ofNat, BitVec.getLsbD_zero]
  rfl

theorem poly_xor (u v : UInt32) : poly (u ^^^ v) = poly u + poly v := by
  ext i
  rw [coeff_add, coeff_poly, coeff_poly, coeff_poly, UInt32.toBitVec_xor, BitVec.getLsbD_xor,
    coefficient_xor]

theorem degree_poly_lt (w : UInt32) : (poly w).degree < (32 : Nat) := by
  refine (degree_lt_iff_coeff_zero _ _).mpr fun i hi => ?_
  rw [coeff_poly, BitVec.getLsbD_of_ge _ _ hi]
  rfl

/-- Multiplication by `x` moves the bits one place up; the one that leaves the word is the
coefficient of `x ^ 32`. -/
theorem poly_mul_X (w : UInt32) :
    poly w * X = poly (w <<< 1) + C (coefficient w.toBitVec.msb) * X ^ 32 := by
  have hshift : (w <<< 1).toBitVec = w.toBitVec <<< 1 := rfl
  have hlast : w.toBitVec.msb = w.toBitVec.getLsbD 31 := BitVec.msb_eq_getLsbD_last _
  ext i
  rw [coeff_add, coeff_C_mul_X_pow, coeff_poly, hshift, BitVec.getLsbD_shiftLeft]
  cases i with
  | zero =>
      rw [coeff_mul_X_zero]
      rfl
  | succ i =>
      rw [coeff_mul_X, coeff_poly, Nat.add_sub_cancel]
      rcases Nat.lt_trichotomy (i + 1) 32 with hlow | htop | hhigh
      · rw [if_neg (by omega), decide_eq_true hlow, decide_eq_false (by omega)]
        exact (add_zero _).symm
      · obtain rfl : i = 31 := Nat.succ.inj htop
        rw [if_pos rfl, hlast]
        exact (zero_add _).symm
      · rw [if_neg (by omega), decide_eq_false (by omega), BitVec.getLsbD_of_ge _ _ (by omega)]
        rfl

/-! ### The generator -/

/-- The generator with its leading term. -/
noncomputable def generator : (ZMod 2)[X] := X ^ 32 + poly 0x04C11DB7

theorem generator_eq : generator = X ^ 32 + poly polynomial := rfl

theorem monic_generator : generator.Monic := monic_X_pow_add (degree_poly_lt _)

theorem degree_generator : generator.degree = (32 : Nat) := by
  have hlow : (poly polynomial).degree < (X ^ 32 : (ZMod 2)[X]).degree := by
    rw [degree_X_pow]
    exact degree_poly_lt polynomial
  rw [generator_eq, degree_add_eq_left_of_degree_lt hlow, degree_X_pow]

/-- Polynomials modulo the generator. -/
abbrev Residue := AdjoinRoot generator

/-- The residue of `x`. -/
noncomputable abbrev root : Residue := AdjoinRoot.root generator

/-- The residue of a word. -/
noncomputable def residue (w : UInt32) : Residue := AdjoinRoot.mk generator (poly w)

@[simp] theorem residue_zero : residue 0 = 0 := by
  rw [residue, poly_zero, map_zero]

theorem residue_xor (u v : UInt32) : residue (u ^^^ v) = residue u + residue v := by
  rw [residue, poly_xor, map_add, ← residue, ← residue]

/-- A register is its own remainder, so its residue tells which it is. -/
theorem poly_eq_modByMonic {w : UInt32} {p : (ZMod 2)[X]}
    (h : residue w = AdjoinRoot.mk generator p) : poly w = p %ₘ generator := by
  have hself : poly w %ₘ generator = poly w := by
    rw [modByMonic_eq_self_iff monic_generator, degree_generator]
    exact degree_poly_lt w
  rw [← hself]
  exact modByMonic_eq_of_dvd_sub monic_generator (AdjoinRoot.mk_eq_mk.mp h)

theorem residue_injective : Function.Injective residue := by
  intro u v h
  refine poly_injective ?_
  rw [poly_eq_modByMonic h, ← poly_eq_modByMonic rfl]

/-! ### The register in the ring of residues -/

/-- What is added to the register for the bit that leaves it is the residue of that bit. -/
theorem residue_taps (b : Bool) :
    residue (taps b) = AdjoinRoot.mk generator (C (coefficient b)) * root ^ 32 := by
  have hroot : root ^ 32 + residue polynomial = 0 := by
    have hself : AdjoinRoot.mk generator generator = 0 := AdjoinRoot.mk_self
    rwa [generator_eq, map_add, map_pow, AdjoinRoot.mk_X] at hself
  cases b with
  | false =>
      have hzero : coefficient false = 0 := rfl
      rw [hzero, C_0, map_zero, zero_mul]
      exact residue_zero
  | true =>
      have hone : coefficient true = 1 := rfl
      rw [hone, C_1, map_one, one_mul, ← ZModModule.neg_eq_self (root ^ 32)]
      exact eq_neg_of_add_eq_zero_right hroot

/-- With a zero the register moves on by one factor. -/
theorem residue_push_false (crc : UInt32) : residue (push crc false) = residue crc * root := by
  have hmul := congrArg (AdjoinRoot.mk generator) (poly_mul_X crc)
  rw [map_mul, map_add, map_mul, map_pow, AdjoinRoot.mk_X, ← residue, ← residue] at hmul
  rw [push_eq, Bool.xor_false, residue_xor, residue_taps, hmul]

theorem residue_feed_zeros (crc : UInt32) (n : Nat) :
    residue (feed crc (List.replicate n false)) = residue crc * root ^ n := by
  induction n generalizing crc with
  | zero => rw [List.replicate_zero, feed_nil, pow_zero, mul_one]
  | succ n ih =>
      rw [List.replicate_succ, feed_cons, ih, residue_push_false, pow_succ', mul_assoc]

/-- A word is added to the register, which then moves on by its 32 bits. -/
theorem advance_eq (crc w : UInt32) : advance crc w = advance (crc ^^^ w) 0 := by
  have hself : advance w w = 0 := advance_eq_zero_iff.mpr rfl
  have hsum := advance_xor crc w w w
  rwa [UInt32.xor_self, hself, UInt32.xor_zero, eq_comm] at hsum

theorem residue_advance (crc w : UInt32) :
    residue (advance crc w) = (residue crc + residue w) * root ^ 32 := by
  have hzeros : bits 0 = List.replicate 32 false := rfl
  rw [advance_eq, advance_eq_feed, hzeros, residue_feed_zeros, residue_xor]

/-- Each word counts with a factor for every bit from its own first one on. -/
theorem residue_advanceAll (crc : UInt32) (words : List UInt32) :
    residue (advanceAll crc words) = residue crc * root ^ (32 * words.length) +
      ∑ i : Fin words.length, residue words[i] * root ^ (32 * (words.length - i)) := by
  induction words generalizing crc with
  | nil => simp
  | cons w words ih =>
      have hfactors :
          root ^ 32 * root ^ (32 * words.length) = root ^ (32 * (words.length + 1)) := by
        rw [← pow_add, Nat.mul_succ, Nat.add_comm]
      have hrest : ∑ i : Fin words.length,
            residue (w :: words)[i.succ] * root ^ (32 * (words.length + 1 - i.succ)) =
          ∑ i : Fin words.length, residue words[i] * root ^ (32 * (words.length - i)) := by
        refine Finset.sum_congr rfl fun i _ => ?_
        rw [Fin.val_succ, Nat.add_sub_add_right]
        rfl
      have hsum := Fin.sum_univ_succ fun i : Fin (words.length + 1) =>
        residue (w :: words)[i] * root ^ (32 * (words.length + 1 - i))
      rw [hrest] at hsum
      rw [advanceAll_cons, ih, residue_advance, mul_assoc, hfactors, add_mul, add_assoc]
      exact congrArg (residue crc * root ^ (32 * (words.length + 1)) + ·) hsum.symm

/-! ### Which words make which register -/

theorem advance_eq_advance_iff {r s u v : UInt32} :
    advance r u = advance s v ↔ r ^^^ s = u ^^^ v := by
  rw [← UInt32.xor_eq_zero_iff, ← advance_xor, advance_eq_zero_iff]

theorem bijective_of_injective {f : UInt32 → UInt32} (h : Function.Injective f) :
    Function.Bijective f := by
  have hfinite : Finite UInt32 := .of_injective UInt32.toFin fun _ _ => UInt32.toFin_inj.mp
  exact Finite.injective_iff_bijective.mp h

theorem bijective_advance_register (w : UInt32) : Function.Bijective fun r => advance r w := by
  refine bijective_of_injective fun r s h => UInt32.xor_eq_zero_iff.mp ?_
  rw [advance_eq_advance_iff.mp h, UInt32.xor_self]

theorem bijective_advance_word (r : UInt32) : Function.Bijective fun w => advance r w := by
  refine bijective_of_injective fun u v h => UInt32.xor_eq_zero_iff.mp ?_
  rw [← advance_eq_advance_iff.mp h, UInt32.xor_self]

theorem bijective_advanceAll (words : List UInt32) :
    Function.Bijective fun r => advanceAll r words := by
  induction words with
  | nil => exact Function.bijective_id
  | cons w words ih => exact ih.comp (bijective_advance_register w)

/-- **The checksum is polynomial division.** The register after a list of words is the remainder,
by the generator, of its first value followed by the words, read as one polynomial over the field of
two elements. So it is linear in first value and words together, a word does the same as if it were
added to the register and a zero taken, and given all the others each of these, first value or
word, makes each value of the register just once. -/
theorem division_by_generator :
    (∀ (r : UInt32) (words : List UInt32), poly (advanceAll r words) =
      (poly r * X ^ (32 * words.length) +
        ∑ i : Fin words.length, poly words[i] * X ^ (32 * (words.length - i))) %ₘ generator) ∧
    (∀ (r s : UInt32) (us vs : List UInt32), us.length = vs.length →
      advanceAll (r ^^^ s) (List.zipWith (· ^^^ ·) us vs) = advanceAll r us ^^^ advanceAll s vs) ∧
    (∀ r w : UInt32, advance r w = advance (r ^^^ w) 0) ∧
    (∀ words : List UInt32, Function.Bijective fun r => advanceAll r words) ∧
    ∀ (r : UInt32) (us vs : List UInt32),
      Function.Bijective fun w => advanceAll r (us ++ w :: vs) := by
  refine ⟨fun r words => ?_, fun r s us vs h => advanceAll_xor r s h, advance_eq,
    bijective_advanceAll, fun r us vs => ?_⟩
  · refine poly_eq_modByMonic ?_
    rw [residue_advanceAll, map_add, map_mul, map_pow, AdjoinRoot.mk_X, map_sum]
    simp only [map_mul, map_pow, AdjoinRoot.mk_X, residue]
  · simp only [advanceAll_append, advanceAll_cons]
    exact (bijective_advanceAll vs).comp (bijective_advance_word _)

/-- Two words and their errors; the register is linear in them. -/
theorem division_by_generator_two :
    ([0x39, 1] : List UInt32).length = ([0, 0x80000000] : List UInt32).length ∧
      advanceAll (seed ^^^ 0) [0x39 ^^^ 0, 1 ^^^ 0x80000000] =
        advanceAll seed [0x39, 1] ^^^ advanceAll 0 [0, 0x80000000] :=
  ⟨rfl, division_by_generator.2.1 seed 0 [0x39, 1] [0, 0x80000000] rfl⟩

end SerialAta.Crc
