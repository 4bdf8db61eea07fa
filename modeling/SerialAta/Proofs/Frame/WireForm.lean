import SerialAta.Frame.Wire
/-!
# SerialAta.Proofs.Frame.WireForm

**Reading a frame back** from the wire.

A receiver that starts with a fresh coder takes off what the sender put on, so the words
taken from `WireCoder.wireForm frame` are the words of the frame and their checksum
(`takeWords_wireForm`). No other wire words give that result, because taking loses
nothing (`takeWords_inj`). Hence `eq_wireForm_iff`, the form in which receivers use it:
wire words are those of a frame exactly if what is taken from them is the frame and
its checksum.
-/

namespace SerialAta

namespace Scrambler

theorem scramble_inj {s : Scrambler} {u v : UInt32} (h : (s.scramble u).1 = (s.scramble v).1) :
    u = v := by
  have hu := congrArg Prod.fst (s.scramble_scramble u)
  have hv := congrArg Prod.fst (s.scramble_scramble v)
  rw [h] at hu
  exact hu.symm.trans hv

end Scrambler

theorem swapBytes_inj {u v : UInt32} (h : swapBytes u = swapBytes v) : u = v := by
  rw [← swapBytes_swapBytes u, h, swapBytes_swapBytes]

namespace WireCoder

/-! ### Taking words -/

/-- The word taken, and the register after it, do not depend on the checksum. -/
theorem takeWord_of_scrambler {c d : WireCoder} (h : c.scrambler = d.scrambler) (wire : UInt32) :
    (c.takeWord wire).1 = (d.takeWord wire).1 ∧
      (c.takeWord wire).2.scrambler = (d.takeWord wire).2.scrambler := by
  simp only [takeWord, h, and_self]

@[simp] theorem takeWords_nil (c : WireCoder) : c.takeWords [] = ([], c) := rfl

theorem takeWords_cons (c : WireCoder) (wire : UInt32) (wires : List UInt32) :
    c.takeWords (wire :: wires) =
      ((c.takeWord wire).1 :: ((c.takeWord wire).2.takeWords wires).1,
        ((c.takeWord wire).2.takeWords wires).2) := rfl

@[simp] theorem length_takeWords (c : WireCoder) (wire : List UInt32) :
    (c.takeWords wire).1.length = wire.length := by
  induction wire generalizing c with
  | nil => rfl
  | cons w wire ih => rw [takeWords_cons, List.length_cons, ih, List.length_cons]

theorem takeWords_append (c : WireCoder) (us ws : List UInt32) :
    c.takeWords (us ++ ws) =
      ((c.takeWords us).1 ++ ((c.takeWords us).2.takeWords ws).1,
        ((c.takeWords us).2.takeWords ws).2) := by
  induction us generalizing c with
  | nil => rfl
  | cons u us ih => simp only [List.cons_append, takeWords_cons, ih]

/-- Only the register counts for a whole list of words, too. -/
theorem takeWords_of_scrambler {c d : WireCoder} (h : c.scrambler = d.scrambler)
    (wires : List UInt32) :
    (c.takeWords wires).1 = (d.takeWords wires).1 ∧
      (c.takeWords wires).2.scrambler = (d.takeWords wires).2.scrambler := by
  induction wires generalizing c d with
  | nil => exact ⟨rfl, h⟩
  | cons wire wires ih =>
      obtain ⟨hword, hnext⟩ := takeWord_of_scrambler h wire
      obtain ⟨hwords, hlast⟩ := ih hnext
      exact ⟨by rw [takeWords_cons, takeWords_cons, hword, hwords], hlast⟩

theorem takeWord_inj {c : WireCoder} {u v : UInt32} (h : (c.takeWord u).1 = (c.takeWord v).1) :
    u = v :=
  swapBytes_inj (Scrambler.scramble_inj h)

/-- Taking loses nothing: different wire words give different words. -/
theorem takeWords_inj {c : WireCoder} {us ws : List UInt32}
    (h : (c.takeWords us).1 = (c.takeWords ws).1) : us = ws := by
  induction us generalizing c ws with
  | nil =>
      cases ws with
      | nil => rfl
      | cons w ws => exact absurd h (List.cons_ne_nil _ _).symm
  | cons u us ih =>
      cases ws with
      | nil => exact absurd h (List.cons_ne_nil _ _)
      | cons w ws =>
          rw [takeWords_cons, takeWords_cons] at h
          obtain ⟨hword, hwords⟩ := List.cons.inj h
          obtain rfl := takeWord_inj hword
          rw [ih hwords]

/-! ### Putting words -/

@[simp] theorem putWords_nil (c : WireCoder) : c.putWords [] = ([], c) := rfl

theorem putWords_cons (c : WireCoder) (word : UInt32) (words : List UInt32) :
    c.putWords (word :: words) =
      ((c.putWord word).1 :: ((c.putWord word).2.putWords words).1,
        ((c.putWord word).2.putWords words).2) := rfl

theorem putWords_append (c : WireCoder) (us ws : List UInt32) :
    c.putWords (us ++ ws) =
      ((c.putWords us).1 ++ ((c.putWords us).2.putWords ws).1,
        ((c.putWords us).2.putWords ws).2) := by
  induction us generalizing c with
  | nil => rfl
  | cons u us ih => simp only [List.cons_append, putWords_cons, ih]

/-- The checksum counts every word put. -/
theorem putWords_crc (c : WireCoder) (words : List UInt32) :
    (c.putWords words).2.crc = Crc.advanceAll c.crc words := by
  induction words generalizing c with
  | nil => rfl
  | cons word words ih => rw [putWords_cons]; exact ih _

theorem wireForm_eq (frame : Frame) :
    wireForm frame =
      (initial.putWords frame).1 ++ [((initial.putWords frame).2.putCrc).1] := rfl

/-! ### Taking what was put -/

theorem takeWords_putWords (c : WireCoder) (words : List UInt32) :
    (c.takeWords (c.putWords words).1).1 = words ∧
      (c.takeWords (c.putWords words).1).2.scrambler = (c.putWords words).2.scrambler := by
  induction words generalizing c with
  | nil => exact ⟨rfl, rfl⟩
  | cons word words ih =>
      obtain ⟨hwords, hlast⟩ := ih (c.putWord word).2
      rw [putWords_cons, takeWords_cons, takeWord_putWord]
      -- The receiver's coder is one checksum behind the sender's, its register is not.
      obtain ⟨h, h'⟩ := takeWords_of_scrambler
        (c := { scrambler := (c.putWord word).2.scrambler, crc := c.crc })
        (d := (c.putWord word).2) rfl ((c.putWord word).2.putWords words).1
      exact ⟨congrArg (word :: ·) (h.trans hwords), h'.trans hlast⟩

/-- What a receiver takes from a frame on the wire: the words and their checksum. -/
theorem takeWords_wireForm (frame : Frame) :
    (initial.takeWords (wireForm frame)).1 = frame ++ [Crc.ofWords frame] := by
  obtain ⟨hwords, hlast⟩ := takeWords_putWords initial frame
  obtain ⟨htrailer, -⟩ :=
    takeWord_of_scrambler hlast ((initial.putWords frame).2.putCrc).1
  rw [wireForm_eq, takeWords_append, hwords, takeWords_cons, htrailer, takeWord_putCrc,
    takeWords_nil, putWords_crc]
  rfl

/-- Wire words are those of a frame exactly if what is taken from them is the frame
and its checksum. -/
theorem eq_wireForm_iff {wire : List UInt32} {frame : Frame} :
    wire = wireForm frame ↔ (initial.takeWords wire).1 = frame ++ [Crc.ofWords frame] := by
  refine ⟨fun h => h ▸ takeWords_wireForm frame, fun h => ?_⟩
  exact takeWords_inj (h.trans (takeWords_wireForm frame).symm)

/-- A frame is known by its wire words. -/
theorem wireForm_inj {f g : Frame} (h : wireForm f = wireForm g) : f = g := by
  have hf := eq_wireForm_iff.mp h
  rw [takeWords_wireForm] at hf
  exact (List.append_inj' hf rfl).1

end WireCoder

/-- What the host makes of a frame on the wire: the frame, and it is intact unless it
is empty. -/
theorem ReceivedFrame.ofWire_wireForm (frame : Frame) :
    ReceivedFrame.ofWire (WireCoder.wireForm frame) =
      { words := frame, wire := WireCoder.wireForm frame, intact := !frame.isEmpty } := by
  simp [ReceivedFrame.ofWire, WireCoder.takeWords_wireForm]

end SerialAta
