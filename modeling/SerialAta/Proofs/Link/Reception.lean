import SerialAta.Proofs.Frame.WireForm
import SerialAta.Proofs.Link.Step
/-!
# SerialAta.Proofs.Link.Reception

**What the link accepts.** Between start and end of a frame the host may drive any words.
Those that carry data decide: the frame is accepted exactly if they are the wire words of
a frame that the settings allow (`receives_exactly_wireForms`).

The state in the middle of a frame is not found by running the link. `Link.receiving` gives
it as a function of the wire words that have come: all words but the last are data, as far as
there is room, the last is held back, and the checksum is that of the data, room or not.
One step takes this state from the words before it to the words with it, so what an earlier
frame has left behind plays no part.
-/

namespace SerialAta

/-- The data words among the words of a host, in order. -/
def PhyWord.dataWords (words : List PhyWord) : List UInt32 :=
  words.filterMap fun w => if w.primitive then none else some w.data

theorem PhyWord.dataWords_map_ofData (wires : List UInt32) :
    dataWords (wires.map .ofData) = wires := by
  rw [dataWords, List.filterMap_map]
  exact List.filterMap_some

/-- Wire words that a receiver with room for `maxWords` words takes for `frame`: they are its
wire form, and it has at least one word and none too many. -/
def WireCoder.Encodes (maxWords : Nat) (wire : List UInt32) (frame : Frame) : Prop :=
  1 ≤ frame.length ∧ frame.length ≤ maxWords ∧ wire = wireForm frame

namespace Reception

/-! ### The incoming frame, from the words that have come -/

/-- The incoming frame once the words `taken` have come. -/
def ofTaken (maxWords : Nat) (taken : List UInt32) : Reception :=
  { words := (taken.dropLast.take maxWords).toArray
    held := taken.getLast?
    overflow := decide (maxWords < taken.dropLast.length) }

@[simp] theorem ofTaken_nil (maxWords : Nat) : ofTaken maxWords [] = .empty := by
  simp [ofTaken, empty]

theorem ofTaken_concat (maxWords : Nat) (before : List UInt32) (last : UInt32) :
    ofTaken maxWords (before ++ [last]) =
      { words := (before.take maxWords).toArray
        held := some last
        overflow := decide (maxWords < before.length) } := by
  simp [ofTaken]

theorem push_ofTaken (maxWords : Nat) (taken : List UInt32) (word : UInt32) :
    (ofTaken maxWords taken).push maxWords word = ofTaken maxWords (taken ++ [word]) := by
  rcases List.eq_nil_or_concat taken with rfl | ⟨before, last, rfl⟩
  · rfl
  · rw [List.concat_eq_append, ofTaken_concat, ofTaken_concat]
    by_cases hroom : before.length < maxWords
    · have hno : ¬maxWords < before.length := by omega
      have hfit : before.length + 1 ≤ maxWords := hroom
      simp [push, hroom, hno, hfit, List.take_of_length_le (Nat.le_of_lt hroom),
        List.take_of_length_le]
    · have hfull : maxWords ≤ before.length := Nat.le_of_not_lt hroom
      simp [push, hfull, List.take_append_of_le_length hfull, Nat.lt_succ_of_le hfull]

/-- The frame that has come is intact exactly if it is a frame of the allowed length,
followed by its checksum. -/
theorem isIntact_ofTaken {maxWords : Nat} {taken : List UInt32} :
    (ofTaken maxWords taken).isIntact (Crc.ofWords taken.dropLast) = true ↔
      ∃ frame : Frame, 1 ≤ frame.length ∧ frame.length ≤ maxWords ∧
        taken = frame ++ [Crc.ofWords frame] := by
  rcases List.eq_nil_or_concat taken with rfl | ⟨before, last, rfl⟩
  · simp [isIntact, empty]
  · rw [List.concat_eq_append, ofTaken_concat, List.dropLast_concat]
    constructor
    · intro h
      simp only [isIntact, Bool.and_eq_true, Bool.not_eq_true', decide_eq_false_iff_not,
        beq_iff_eq, Option.some.injEq] at h
      -- The word held back is the checksum of the words before it.
      obtain ⟨⟨hroom, hne⟩, rfl⟩ := h
      refine ⟨before, ?_, Nat.le_of_not_lt hroom, rfl⟩
      refine Nat.pos_of_ne_zero fun hzero => ?_
      rw [List.eq_nil_of_length_eq_zero hzero] at hne
      simp at hne
    · rintro ⟨frame, hpos, hmax, h⟩
      obtain ⟨rfl, hlast⟩ := List.append_inj' h rfl
      obtain rfl := (List.cons.inj hlast).1
      have hne : before.take maxWords ≠ [] := by
        rw [List.take_of_length_le hmax]
        exact List.ne_nil_of_length_pos hpos
      simp [isIntact, hmax, hne]

/-- An intact frame has come with all its words. -/
theorem words_ofTaken {maxWords : Nat} {frame : Frame} (h : frame.length ≤ maxWords)
    (last : UInt32) : (ofTaken maxWords (frame ++ [last])).words.toList = frame := by
  rw [ofTaken_concat, List.toList_toArray, List.take_of_length_le h]

end Reception

namespace Link

variable {l : Link}

/-! ### The link in the middle of a frame -/

/-- The link once the start of a frame and the wire words `wire` have come. -/
def receiving (l : Link) (wire : List UInt32) : Link :=
  let taken := (WireCoder.initial.takeWords wire).1
  { l with
    state := .rcvData
    coder :=
      { scrambler := (WireCoder.initial.takeWords wire).2.scrambler
        crc := Crc.ofWords taken.dropLast }
    reception := .ofTaken l.parameters.maxFrameWords taken }

/-- The start of a frame forgets what an earlier one has left behind. -/
theorem step_sof (h : l.state = .rcvChkRdy) :
    l.step (.ofPrimitive .sof) = (.ofPrimitive .rRdy, l.receiving []) := by
  rw [step_rcvChkRdy_sof h (PhyWord.asPrimitive?_ofPrimitive .sof)]
  simp [receiving, beginReceive, Crc.ofWords, WireCoder.initial]

/-- The word held back turns out to be data, so it counts once the next one comes. -/
theorem countHeld_ofTaken (c : WireCoder) (maxWords : Nat) (taken : List UInt32) (word : UInt32)
    (hc : c.crc = Crc.ofWords taken.dropLast) :
    (match (Reception.ofTaken maxWords taken).held with
      | none => c
      | some before => c.countWord before) =
      { scrambler := c.scrambler, crc := Crc.ofWords (taken ++ [word]).dropLast } := by
  rcases List.eq_nil_or_concat taken with rfl | ⟨before, last, rfl⟩
  · exact congrArg (WireCoder.mk c.scrambler) hc
  · rw [List.concat_eq_append, List.dropLast_concat] at hc
    rw [List.concat_eq_append, Reception.ofTaken_concat, List.dropLast_concat, Crc.ofWords,
      Crc.advanceAll_append]
    simp only [WireCoder.countWord, hc, Crc.advanceAll_cons, Crc.advanceAll_nil, Crc.ofWords]

theorem receive_receiving (l : Link) (wire : List UInt32) (word : UInt32) :
    (l.receiving wire).receive word = l.receiving (wire ++ [word]) := by
  obtain ⟨hword, hscrambler⟩ := WireCoder.takeWord_of_scrambler
    (c := (l.receiving wire).coder) (d := (WireCoder.initial.takeWords wire).2) rfl word
  have htaken : (WireCoder.initial.takeWords (wire ++ [word])).1 =
      (WireCoder.initial.takeWords wire).1 ++ [((l.receiving wire).coder.takeWord word).1] := by
    rw [WireCoder.takeWords_append, hword]
    rfl
  have hlast : (WireCoder.initial.takeWords (wire ++ [word])).2.scrambler =
      ((l.receiving wire).coder.takeWord word).2.scrambler := by
    rw [WireCoder.takeWords_append, hscrambler]
    rfl
  have hcount := countHeld_ofTaken ((l.receiving wire).coder.takeWord word).2
    l.parameters.maxFrameWords (WireCoder.initial.takeWords wire).1
    ((l.receiving wire).coder.takeWord word).1 rfl
  calc (l.receiving wire).receive word
      = { l with
          state := .rcvData
          coder :=
            match (Reception.ofTaken l.parameters.maxFrameWords
              (WireCoder.initial.takeWords wire).1).held with
            | none => ((l.receiving wire).coder.takeWord word).2
            | some before => ((l.receiving wire).coder.takeWord word).2.countWord before
          reception :=
            (Reception.ofTaken l.parameters.maxFrameWords
              (WireCoder.initial.takeWords wire).1).push l.parameters.maxFrameWords
                ((l.receiving wire).coder.takeWord word).1 } := rfl
    _ = l.receiving (wire ++ [word]) := by
        rw [hcount, Reception.push_ofTaken, ← htaken, ← hlast]
        rfl

theorem step_receiving_data (l : Link) (wire : List UInt32) {host : PhyWord}
    (h : host.primitive = false) :
    ((l.receiving wire).step host).2 = l.receiving (wire ++ [host.data]) := by
  rw [step_rcvData_data rfl h, receive_receiving]
  rfl

theorem step_receiving_primitive (l : Link) (wire : List UInt32) {host : PhyWord}
    (h : host.primitive = true) (heof : host.asPrimitive? ≠ some .eof)
    (hwtrm : host.asPrimitive? ≠ some .wtrm) :
    ((l.receiving wire).step host).2 = l.receiving wire := by
  rw [step_rcvData_primitive rfl h, if_neg heof, if_neg hwtrm]
  rfl

/-- Words of the host that do not end the frame add their data words to it. -/
theorem after_receiving (l : Link) (wire : List UInt32) {words : List PhyWord}
    (h : ∀ w ∈ words, w.asPrimitive? ≠ some .eof ∧ w.asPrimitive? ≠ some .wtrm) :
    (l.receiving wire).after words = l.receiving (wire ++ PhyWord.dataWords words) := by
  induction words generalizing wire with
  | nil => simp [PhyWord.dataWords]
  | cons w words ih =>
      obtain ⟨heof, hwtrm⟩ := h w (List.mem_cons_self ..)
      have hrest := fun v hv => h v (List.mem_cons_of_mem w hv)
      rw [after_cons]
      cases hw : w.primitive with
      | true =>
          rw [step_receiving_primitive l wire hw heof hwtrm, ih wire hrest]
          simp [PhyWord.dataWords, hw]
      | false =>
          rw [step_receiving_data l wire hw, ih _ hrest]
          simp [PhyWord.dataWords, hw]

/-! ### The verdict -/

/-- The link once the end of the frame has come after it. -/
def closing (l : Link) (wire : List UInt32) : Link :=
  { l.receiving wire with state := .rcvEof }

theorem step_receiving_eof (l : Link) (wire : List UInt32) :
    (l.receiving wire).step (.ofPrimitive .eof) = (.ofPrimitive .rIp, l.closing wire) := by
  rw [step_rcvData_primitive rfl rfl, if_pos (PhyWord.asPrimitive?_ofPrimitive .eof)]
  rfl

theorem step_receiving_wtrm (l : Link) (wire : List UInt32) :
    (l.receiving wire).step (.ofPrimitive .wtrm) =
      (.ofPrimitive .rIp, { l.receiving wire with state := .badEnd }) := by
  rw [step_rcvData_primitive rfl rfl, PhyWord.asPrimitive?_ofPrimitive, if_neg (by decide),
    if_pos rfl]

theorem isIntact_closing {wire : List UInt32} :
    (l.closing wire).reception.isIntact (l.closing wire).coder.crc = true ↔
      ∃ frame, WireCoder.Encodes l.parameters.maxFrameWords wire frame := by
  refine Reception.isIntact_ofTaken.trans (exists_congr fun frame => ?_)
  rw [WireCoder.Encodes, WireCoder.eq_wireForm_iff]

theorem words_closing {wire : List UInt32} {frame : Frame}
    (h : WireCoder.Encodes l.parameters.maxFrameWords wire frame) :
    (l.closing wire).reception.words.toList = frame := by
  obtain ⟨-, hmax, hwire⟩ := h
  rw [closing, receiving, WireCoder.eq_wireForm_iff.mp hwire]
  exact Reception.words_ofTaken hmax _

/-- Wire words of an allowed frame are accepted, and the frame is theirs. -/
theorem accepted?_closing_good {wire : List UInt32} {frame : Frame}
    (h : WireCoder.Encodes l.parameters.maxFrameWords wire frame) (host : PhyWord) :
    (l.closing wire).accepted? host = some frame := by
  rw [accepted?_rcvEof rfl, if_pos (isIntact_closing.mpr ⟨frame, h⟩), words_closing h]

/-- Any other wire words are not. -/
theorem accepted?_closing_bad {wire : List UInt32}
    (h : ¬∃ frame, WireCoder.Encodes l.parameters.maxFrameWords wire frame) (host : PhyWord) :
    (l.closing wire).accepted? host = none := by
  rw [accepted?_rcvEof rfl, if_neg fun hi => h (isIntact_closing.mp hi)]

theorem step_closing_good {wire : List UInt32} {frame : Frame}
    (h : WireCoder.Encodes l.parameters.maxFrameWords wire frame) (host : PhyWord) :
    (l.closing wire).step host = (.ofPrimitive .rIp,
      { l.closing wire with
        state := .goodEnd
        received := l.received ++ [frame]
        reception := { (l.closing wire).reception with words := #[] } }) := by
  rw [step_rcvEof rfl, endReceive_of_intact (isIntact_closing.mpr ⟨frame, h⟩), words_closing h,
    if_pos rfl]
  rfl

theorem step_closing_bad {wire : List UInt32}
    (h : ¬∃ frame, WireCoder.Encodes l.parameters.maxFrameWords wire frame) (host : PhyWord) :
    (l.closing wire).step host =
      (.ofPrimitive .rIp, { l.closing wire with state := .badEnd }) := by
  have hdamaged := Bool.eq_false_iff.mpr fun hi => h (isIntact_closing (l := l).mp hi)
  rw [step_rcvEof rfl, endReceive_of_damaged hdamaged, if_neg Bool.false_ne_true]

/-- From the readiness for a frame to its end. -/
theorem after_frame (h : l.state = .rcvChkRdy) {words : List PhyWord}
    (hw : ∀ w ∈ words, w.asPrimitive? ≠ some .eof ∧ w.asPrimitive? ≠ some .wtrm) :
    l.after (.ofPrimitive .sof :: words) = l.receiving (PhyWord.dataWords words) := by
  rw [after_cons, step_sof h, after_receiving l [] hw, List.nil_append]

/-- From the readiness for a frame past its end, with nothing but data words in it. -/
theorem after_wire (h : l.state = .rcvChkRdy) (wire : List UInt32) :
    l.after (.ofPrimitive .sof :: wire.map .ofData ++ [.ofPrimitive .eof]) = l.closing wire := by
  have hdata : ∀ w ∈ wire.map PhyWord.ofData,
      w.asPrimitive? ≠ some .eof ∧ w.asPrimitive? ≠ some .wtrm := by
    intro w hw
    obtain ⟨word, -, rfl⟩ := List.mem_map.mp hw
    exact ⟨by simp, by simp⟩
  rw [after_append, after_frame h hdata, PhyWord.dataWords_map_ofData, after_cons,
    step_receiving_eof, after_nil]

/-- **The link accepts exactly the frames that are well formed.** Let the host drive the
start of a frame, any words that do not end it, its end and one word more. Then a frame is
received if and only if the data words among them are its wire form and its length is
allowed; otherwise nothing is received, and the link reports the damage. A frame that
breaks off is damaged at once. -/
theorem receives_exactly_wireForms (h : l.state = .rcvChkRdy) {words : List PhyWord}
    (hw : ∀ w ∈ words, w.asPrimitive? ≠ some .eof ∧ w.asPrimitive? ≠ some .wtrm)
    (more : PhyWord) :
    let ended := l.after (.ofPrimitive .sof :: words ++ [.ofPrimitive .eof, more])
    let broken := l.after (.ofPrimitive .sof :: words ++ [.ofPrimitive .wtrm])
    let Carries := WireCoder.Encodes l.parameters.maxFrameWords (PhyWord.dataWords words)
    (∀ frame, ended.state = .goodEnd ∧ ended.received = l.received ++ [frame] ↔ Carries frame) ∧
      ((¬∃ frame, Carries frame) → ended.state = .badEnd ∧ ended.received = l.received) ∧
      broken.state = .badEnd ∧ broken.received = l.received := by
  intro ended broken Carries
  have hended : ended = ((l.closing (PhyWord.dataWords words)).step more).2 := by
    simp only [ended, after_append, after_frame h hw, after_cons, step_receiving_eof, after_nil]
  have hbroken : broken = { l.receiving (PhyWord.dataWords words) with state := .badEnd } := by
    simp only [broken, after_append, after_frame h hw, after_cons, step_receiving_wtrm, after_nil]
  refine ⟨fun frame => ⟨fun ⟨hgood, hreceived⟩ => ?_, fun hc => ?_⟩, fun hc => ?_, ?_⟩
  · by_cases hc : ∃ frame, Carries frame
    · obtain ⟨frame', hc'⟩ := hc
      rw [hended, step_closing_good hc' more] at hreceived
      obtain rfl : frame' = frame := by simpa using hreceived
      exact hc'
    · rw [hended, step_closing_bad hc more] at hgood
      cases hgood
  · rw [hended, step_closing_good hc more]
    exact ⟨rfl, rfl⟩
  · rw [hended, step_closing_bad hc more]
    exact ⟨rfl, rfl⟩
  · rw [hbroken]
    exact ⟨rfl, rfl⟩

/-- One word, with fillers and an unknown code around its wire form, after a frame that
broke off and with one waiting to be sent. -/
theorem receives_one_word :
    let l : Link := { Link.new .standard with
      state := .rcvChkRdy
      coder := ⟨⟨5⟩, 7⟩
      outbound := [[1, 2]]
      reception := { words := #[9], held := some 3, overflow := true } }
    let words : List PhyWord :=
      [.ofPrimitive .align, .ofData 3027686082, ⟨0xDEAD, true⟩, .ofData 3877325274,
        .ofPrimitive .sof]
    (∀ w ∈ words, w.asPrimitive? ≠ some .eof ∧ w.asPrimitive? ≠ some .wtrm) ∧
      let ended := l.after (.ofPrimitive .sof :: words ++ [.ofPrimitive .eof, .ofPrimitive .wtrm])
      ended.state = .goodEnd ∧ ended.received = [[0x39]] := by
  intro l words
  have hw : ∀ w ∈ words, w.asPrimitive? ≠ some .eof ∧ w.asPrimitive? ≠ some .wtrm := by
    decide +kernel
  refine ⟨hw, ((receives_exactly_wireForms (l := l) rfl hw (.ofPrimitive .wtrm)).1 [0x39]).mpr ?_⟩
  exact ⟨by decide, by decide, by decide +kernel⟩

end Link

end SerialAta
