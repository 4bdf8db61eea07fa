import Mathlib.GroupTheory.OrderOfElement
import Mathlib.Tactic.LinearCombination
import Mathlib.Tactic.NormNum.Prime
import SerialAta.Proofs.Frame.Remainder
/-!
# SerialAta.Proofs.Frame.Period

**The period of the checksum.** Modulo the generator the powers of `x` come back to one only after
2³² − 1 factors (`Crc.orderOf_root`), as late as they can in a register of 32 bits. So a single bit
in the stream of a frame makes another register for every place that it can have.

The order is found from its prime divisors, 3, 5, 17, 257 and 65537: the power by all of them is
one, and leaving any of them out makes another. Powers are calculated in the register itself, by
squaring (`square`) and moving on by one bit, from the digits of the exponent (`rootPower`).
-/

namespace SerialAta.Crc

open Polynomial

/-! ### Powers in the register -/

theorem residue_one : residue 1 = 1 := by
  have hbits : ∀ i < 32, (1 : UInt32).toBitVec.getLsbD i = decide (i = 0) := by decide
  have hpoly : poly 1 = 1 := by
    ext i
    rw [coeff_poly, coeff_one]
    by_cases hi : i < 32
    · rw [hbits i hi]
      cases i <;> rfl
    · rw [BitVec.getLsbD_of_ge _ _ (Nat.le_of_not_lt hi), if_neg (by omega)]
      rfl
  rw [residue, hpoly, map_one]

theorem and_one_eq (w : UInt32) : w &&& 1 = 0 ∨ w &&& 1 = 1 := by
  have hmod : (w &&& 1).toNat = w.toNat % 2 := by
    rw [UInt32.toNat_and, UInt32.toNat_one, Nat.and_one_is_mod]
  rcases Nat.mod_two_eq_zero_or_one w.toNat with h | h
  · exact .inl (UInt32.toNat_inj.mp (hmod.trans h))
  · exact .inr (UInt32.toNat_inj.mp (hmod.trans h))

/-- A word is its lowest bit and, one place higher, the others. -/
theorem residue_halved (w : UInt32) :
    residue w = residue (w >>> 1) * root + residue (w &&& 1) := by
  have hshift : (w >>> 1).toBitVec = w.toBitVec >>> 1 := rfl
  have hpoly : poly w = poly (w >>> 1) * X + poly (w &&& 1) := by
    ext i
    rw [coeff_add, coeff_poly, coeff_poly, UInt32.toBitVec_and, BitVec.getLsbD_and]
    cases i with
    | zero =>
        have hone : (1 : UInt32).toBitVec.getLsbD 0 = true := rfl
        rw [coeff_mul_X_zero, zero_add, hone, Bool.and_true]
    | succ i =>
        have hone : (1 : UInt32).toBitVec.getLsbD (i + 1) = false := by simp
        rw [coeff_mul_X, coeff_poly, hshift, BitVec.getLsbD_ushiftRight, Nat.add_comm 1, hone,
          Bool.and_false]
        exact (add_zero _).symm
  have hmap := congrArg (AdjoinRoot.mk generator) hpoly
  rwa [map_add, map_mul, AdjoinRoot.mk_X] at hmap

/-- The square of a word of `n` bits: its lowest bit and, two places higher, the square of the
others. -/
def square : (n : Nat) → (w : UInt32) → UInt32
  | 0, _ => 0
  | n + 1, w => push (push (square n (w >>> 1)) false) false ^^^ (w &&& 1)

theorem residue_square {n : Nat} {w : UInt32} (h : w.toNat < 2 ^ n) :
    residue (square n w) = residue w ^ 2 := by
  induction n generalizing w with
  | zero =>
      obtain rfl : w = 0 := UInt32.toNat_inj.mp (Nat.lt_one_iff.mp h)
      rw [square, residue_zero, zero_pow two_ne_zero]
  | succ n ih =>
      have hhalf : (w >>> 1).toNat < 2 ^ n := by
        have hdiv : (w >>> 1).toNat = w.toNat / 2 := Nat.shiftRight_one _
        omega
      have hbit : residue (w &&& 1) ^ 2 = residue (w &&& 1) := by
        rcases and_one_eq w with h | h
        · rw [h, residue_zero, zero_pow two_ne_zero]
        · rw [h, residue_one, one_pow]
      -- The mixed term of the square is there twice.
      have hmixed := ZModModule.add_self (residue (w >>> 1) * root * residue (w &&& 1))
      calc residue (square (n + 1) w)
          = residue (w >>> 1) ^ 2 * root * root + residue (w &&& 1) ^ 2 := by
            rw [square, residue_xor, residue_push_false, residue_push_false, ih hhalf, hbit]
        _ = (residue (w >>> 1) * root + residue (w &&& 1)) ^ 2 := by
            linear_combination -hmixed
        _ = residue w ^ 2 := by rw [← residue_halved]

/-- `f n`, where the match has `n` evaluated before `f` is applied. -/
def applyTo (n : Nat) (f : UInt32 → UInt32) : UInt32 :=
  match n with
  | 0 => f 0
  | n + 1 => f (n + 1).toUInt32

theorem applyTo_toNat (w : UInt32) (f : UInt32 → UInt32) : applyTo w.toNat f = f w := by
  have happly : ∀ n, applyTo n f = f n.toUInt32 := fun n => by cases n <;> rfl
  rw [happly]
  exact congrArg f UInt32.ofNat_toNat

/-- The power of `x` by a number of so many binary digits. -/
def rootPower : (digits : Nat) → (n : Nat) → UInt32
  | 0, _ => 1
  | digits + 1, n =>
    applyTo (rootPower digits (n / 2)).toNat fun half =>
      if n % 2 = 1 then push (square 32 half) false else square 32 half

theorem residue_rootPower {digits n : Nat} (h : n < 2 ^ digits) :
    residue (rootPower digits n) = root ^ n := by
  induction digits generalizing n with
  | zero =>
      obtain rfl : n = 0 := Nat.lt_one_iff.mp h
      rw [rootPower, residue_one, pow_zero]
  | succ digits ih =>
      have hsquare : residue (square 32 (rootPower digits (n / 2))) = root ^ (n / 2 * 2) := by
        rw [residue_square (UInt32.toNat_lt _), ih (by omega), ← pow_mul]
      rw [rootPower, applyTo_toNat]
      split
      · next hodd =>
        have hn : n / 2 * 2 + 1 = n := by omega
        rw [residue_push_false, hsquare, ← pow_succ, hn]
      · next heven =>
        have hn : n / 2 * 2 = n := by omega
        rw [hsquare, hn]

/-! ### The order of x -/

theorem root_pow_eq_one_iff {n : Nat} (h : n < UInt32.size) :
    root ^ n = 1 ↔ rootPower 32 n = 1 := by
  have hpower : residue (rootPower 32 n) = root ^ n := residue_rootPower h
  rw [← hpower, ← residue_one, residue_injective.eq_iff]

/-- **The generator is primitive**: `x` has the greatest order that it can have. -/
theorem orderOf_root : orderOf root = UInt32.size - 1 := by
  have hfactors : UInt32.size - 1 = [3, 5, 17, 257, 65537].prod := by decide
  have hprime : ∀ q ∈ [3, 5, 17, 257, 65537], q.Prime := by
    simp only [List.forall_mem_cons, List.not_mem_nil, false_imp_iff, implies_true, and_true]
    norm_num
  have hproper : ∀ q ∈ [3, 5, 17, 257, 65537], rootPower 32 ((UInt32.size - 1) / q) ≠ 1 := by
    decide +kernel
  refine orderOf_eq_of_pow_and_pow_div_prime (by decide) ?_ fun p hp hdvd => ?_
  · exact (root_pow_eq_one_iff (by decide)).mpr (by decide +kernel)
  · rw [hfactors] at hdvd
    obtain ⟨q, hq, hpq⟩ := (Prime.dvd_prod_iff hp.prime).mp hdvd
    obtain rfl := (Nat.prime_dvd_prime_iff_eq hp (hprime q hq)).mp hpq
    rw [ne_eq, root_pow_eq_one_iff (Nat.lt_of_le_of_lt (Nat.div_le_self ..) (by decide))]
    exact hproper p hq

/-- Powers of `x` that are nearer to one another than the period are different. -/
theorem root_pow_ne {a b : Nat} (hlt : a < b) (hnear : b - a < UInt32.size - 1) :
    root ^ a ≠ root ^ b := by
  intro heq
  have hunit : IsUnit (root ^ a) := by
    have hfinite : IsOfFinOrder root := orderOf_pos_iff.mp (by rw [orderOf_root]; decide)
    exact hfinite.isUnit.pow a
  have hone : root ^ (b - a) = 1 := by
    refine hunit.mul_left_cancel ?_
    rw [← pow_add, Nat.add_sub_cancel' (Nat.le_of_lt hlt), mul_one, heq]
  have hle := orderOf_le_of_pow_eq_one (Nat.sub_pos_of_lt hlt) hone
  rw [orderOf_root] at hle
  omega

end SerialAta.Crc
