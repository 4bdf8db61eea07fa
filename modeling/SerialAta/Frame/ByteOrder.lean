/-!
# SerialAta.Frame.ByteOrder

The **order of bytes** in a 32-bit word. Words are little-endian inside host and
drive and big-endian on the wire; `swapBytes` goes either way
(`swapBytes_swapBytes`).
-/

namespace SerialAta

/-- The word with its four bytes in reverse order. -/
def swapBytes (w : UInt32) : UInt32 :=
  (w <<< 24) ||| ((w <<< 8) &&& (0xFF0000 : UInt32)) ||| ((w >>> 8) &&& (0xFF00 : UInt32)) |||
    (w >>> 24)

/-- A bit of a swapped word is the bit at the same place of the opposite byte. -/
theorem getLsbD_swapBytes (w : UInt32) {i : Nat} (hi : i < 32) :
    (swapBytes w).toBitVec.getLsbD i = w.toBitVec.getLsbD (8 * (3 - i / 8) + i % 8) := by
  simp only [swapBytes, UInt32.toBitVec_or, UInt32.toBitVec_shiftLeft, UInt32.toBitVec_and,
    UInt32.toBitVec_shiftRight]
  generalize w.toBitVec = b
  match i, hi with
  | 0, _ | 1, _ | 2, _ | 3, _ | 4, _ | 5, _ | 6, _ | 7, _ | 8, _ | 9, _ | 10, _ | 11, _ | 12, _
  | 13, _ | 14, _ | 15, _ | 16, _ | 17, _ | 18, _ | 19, _ | 20, _ | 21, _ | 22, _ | 23, _ | 24, _
  | 25, _ | 26, _ | 27, _ | 28, _ | 29, _ | 30, _ | 31, _ => simp
  | i + 32, hi => omega

@[simp] theorem swapBytes_swapBytes (w : UInt32) : swapBytes (swapBytes w) = w := by
  refine UInt32.toBitVec_inj.mp (BitVec.eq_of_getLsbD_eq fun i hi => ?_)
  rw [getLsbD_swapBytes _ hi, getLsbD_swapBytes _ (by omega)]
  congr 1
  omega

end SerialAta
