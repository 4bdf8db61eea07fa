import SerialAta.Proofs.Frame.Checksum
import SerialAta.Proofs.Link.Reception
/-!
# SerialAta.Proofs.Link.Damage

**Damage that the link is sure to notice.** Errors on the wire are words in host order, added to
the wire words bit by bit. Neither the order of bytes nor the scrambling mixes them with the
frame (`takeWords_disturb`), so they reach the checksum as they are, and what the register holds
after the trailer is what the errors alone leave in it (`residue_disturb`). The link rejects the
frame unless that is zero (`rejects_disturb`). It is not for a burst that is no longer than the
register, wherever it lies in the frame (`rejects_bursts`).
-/

namespace SerialAta

theorem swapBytes_xor (u v : UInt32) : swapBytes (u ^^^ v) = swapBytes u ^^^ swapBytes v := by
  refine UInt32.toBitVec_inj.mp (BitVec.eq_of_getLsbD_eq fun i hi => ?_)
  rw [UInt32.toBitVec_xor, BitVec.getLsbD_xor, getLsbD_swapBytes _ hi, getLsbD_swapBytes _ hi,
    getLsbD_swapBytes _ hi, UInt32.toBitVec_xor, BitVec.getLsbD_xor]

namespace WireCoder

/-! ### Errors on the wire -/

/-- Wire words with errors on them; these are given in host order. -/
def disturb (wire error : List UInt32) : List UInt32 :=
  List.zipWith (fun w e => w ^^^ swapBytes e) wire error

theorem takeWord_disturbed (c : WireCoder) (wire error : UInt32) :
    c.takeWord (wire ^^^ swapBytes error) =
      ((c.takeWord wire).1 ^^^ error, (c.takeWord wire).2) := by
  have hword : swapBytes wire ^^^ error ^^^ c.scrambler.nextMask.1 =
      swapBytes wire ^^^ c.scrambler.nextMask.1 ^^^ error := by ac_rfl
  simp only [takeWord, Scrambler.scramble, swapBytes_xor, swapBytes_swapBytes, hword]

/-- Errors on the wire are the same errors in what is taken from it. -/
theorem takeWords_disturb (c : WireCoder) {wire error : List UInt32}
    (h : wire.length = error.length) :
    (c.takeWords (disturb wire error)).1 =
      List.zipWith (· ^^^ ·) (c.takeWords wire).1 error := by
  induction wire generalizing c error with
  | nil => rfl
  | cons w wire ih =>
      cases error with
      | nil => cases h
      | cons e error =>
          have hrest := ih (c.takeWord w).2 (Nat.succ.inj h)
          rw [disturb, List.zipWith_cons_cons, takeWords_cons, takeWords_cons, takeWord_disturbed,
            List.zipWith_cons_cons]
          exact congrArg _ hrest

/-- What the register of the checksum holds if the trailer is counted like a word of the frame. -/
def residue (wire : List UInt32) : UInt32 :=
  Crc.advanceAll Crc.seed (initial.takeWords wire).1

theorem residue_wireForm (frame : Frame) : residue (wireForm frame) = 0 := by
  rw [residue, takeWords_wireForm, Crc.advanceAll_ofWords]

/-- Of a frame with errors nothing is left but the errors. -/
theorem residue_disturb (frame : Frame) {error : List UInt32}
    (h : error.length = frame.length + 1) :
    residue (disturb (wireForm frame) error) = Crc.advanceAll 0 error := by
  have hwire : (wireForm frame).length = error.length := by rw [length_wireForm, h]
  have htaken : (frame ++ [Crc.ofWords frame]).length = error.length := by simp [h]
  have hseed : Crc.seed = Crc.seed ^^^ 0 := UInt32.xor_zero.symm
  rw [residue, takeWords_disturb _ hwire, takeWords_wireForm, hseed,
    Crc.advanceAll_xor _ _ htaken, Crc.advanceAll_ofWords, UInt32.zero_xor]

/-- An error of zero is none. -/
theorem xor_swapBytes_zero (w : UInt32) : w ^^^ swapBytes 0 = w :=
  UInt32.xor_zero

theorem disturb_zeros (wire : List UInt32) :
    disturb wire (List.replicate wire.length 0) = wire := by
  induction wire with
  | nil => rfl
  | cons w wire ih =>
      rw [disturb, List.length_cons, List.replicate_succ, List.zipWith_cons_cons,
        xor_swapBytes_zero, ← disturb, ih]

/-- One wire word replaced by another is an error in this word. -/
theorem set_eq_disturb {wire : List UInt32} {i : Nat} {old : UInt32} (h : wire[i]? = some old)
    (word : UInt32) :
    wire.set i word =
      disturb wire (List.replicate i 0 ++
        swapBytes (old ^^^ word) :: List.replicate (wire.length - (i + 1)) 0) := by
  induction wire generalizing i with
  | nil => cases h
  | cons w wire ih =>
      cases i with
      | zero =>
          obtain rfl : w = old := Option.some.inj h
          have hword : w ^^^ swapBytes (swapBytes (w ^^^ word)) = word := by
            rw [swapBytes_swapBytes, ← UInt32.xor_assoc, UInt32.xor_self, UInt32.zero_xor]
          rw [List.set_cons_zero, disturb, List.replicate_zero, List.nil_append,
            List.zipWith_cons_cons, hword, ← disturb, List.length_cons, Nat.add_sub_add_right,
            Nat.sub_zero, disturb_zeros]
      | succ i =>
          rw [List.set_cons_succ, ih h, disturb, disturb, List.replicate_succ, List.cons_append,
            List.zipWith_cons_cons, xor_swapBytes_zero, List.length_cons, Nat.add_sub_add_right]

end WireCoder

namespace Link

variable {l : Link}

/-! ### Rejection -/

/-- The link rejects wire words: with the start of a frame before them and its end after them, it
finds the frame damaged in the step after that and keeps nothing of it. -/
def Rejects (l : Link) (wire : List UInt32) : Prop :=
  ∀ more : PhyWord,
    let ended := l.after (.ofPrimitive .sof :: wire.map .ofData ++ [.ofPrimitive .eof, more])
    ended.state = .badEnd ∧ ended.received = l.received

/-- A frame that is intact leaves nothing in the register. -/
theorem rejects_of_residue (h : l.state = .rcvChkRdy) {wire : List UInt32}
    (hne : WireCoder.residue wire ≠ 0) : l.Rejects wire := by
  intro more ended
  have hbad : ¬∃ frame, WireCoder.Encodes l.parameters.maxFrameWords wire frame := by
    rintro ⟨frame, -, -, rfl⟩
    exact hne (WireCoder.residue_wireForm frame)
  have hended : ended = ((l.closing wire).step more).2 := by
    have hlast : [PhyWord.ofPrimitive .eof, more] = [.ofPrimitive .eof] ++ [more] := rfl
    simp only [ended]
    rw [hlast, ← List.append_assoc, after_append, after_wire h, after_cons, after_nil]
  rw [hended, step_closing_bad hbad more]
  exact ⟨rfl, rfl⟩

/-- Errors that leave something in the register are noticed, whatever the frame. -/
theorem rejects_disturb (h : l.state = .rcvChkRdy) (frame : Frame) {error : List UInt32}
    (hlength : error.length = frame.length + 1) (hne : Crc.advanceAll 0 error ≠ 0) :
    l.Rejects (WireCoder.disturb (WireCoder.wireForm frame) error) := by
  refine rejects_of_residue h ?_
  rwa [WireCoder.residue_disturb frame hlength]

/-- **The link notices every burst of errors of up to 32 bits**, in the data of a frame, in its
checksum or across them: it rejects the frame and keeps nothing of it. In particular it notices
whatever happens to a single wire word. -/
theorem rejects_bursts (h : l.state = .rcvChkRdy) (frame : Frame) :
    (∀ error : List UInt32, error.length = frame.length + 1 → Crc.IsBurst error →
      l.Rejects (WireCoder.disturb (WireCoder.wireForm frame) error)) ∧
    ∀ i word, i ≤ frame.length → (WireCoder.wireForm frame)[i]? ≠ some word →
      l.Rejects ((WireCoder.wireForm frame).set i word) := by
  refine ⟨fun error hlength hburst => ?_, fun i word hi hne => ?_⟩
  · exact rejects_disturb h frame hlength hburst.advanceAll_ne_zero
  · have hlt : i < (WireCoder.wireForm frame).length := by
      rw [WireCoder.length_wireForm]
      omega
    let old := (WireCoder.wireForm frame)[i]
    have hold : (WireCoder.wireForm frame)[i]? = some old := List.getElem?_eq_getElem hlt
    have herror : swapBytes (old ^^^ word) ≠ 0 := by
      intro hzero
      have hsame : old ^^^ word = 0 := swapBytes_inj hzero
      exact hne (hold.trans (congrArg some (UInt32.xor_eq_zero_iff.mp hsame)))
    rw [WireCoder.set_eq_disturb hold]
    refine rejects_disturb h frame ?_ (Crc.isBurst_single herror _ _).advanceAll_ne_zero
    rw [List.length_append, List.length_cons, List.length_replicate, List.length_replicate,
      WireCoder.length_wireForm]
    omega

/-- Two wrong bits next to each other, the last of the only data word and the first of the
checksum. -/
theorem rejects_bursts_across :
    let l : Link := { Link.new .standard with state := .rcvChkRdy, received := [[1, 2]] }
    let error : List UInt32 := [1, 0x80000000]
    l.state = .rcvChkRdy ∧ Crc.IsBurst error ∧
      l.Rejects (WireCoder.disturb (WireCoder.wireForm [0x39]) error) := by
  intro l error
  have hburst : Crc.IsBurst error := by
    have hset : ∀ i < 64, (Crc.bitString error)[i]? = some true → 31 ≤ i ∧ i < 31 + 32 := by
      decide +kernel
    exact ⟨⟨1, by decide, by decide⟩, 31, fun i hi =>
      hset i (List.getElem?_eq_some_iff.mp hi).1 hi⟩
  exact ⟨rfl, hburst, (rejects_bursts rfl [0x39]).1 error rfl hburst⟩

end Link

end SerialAta
