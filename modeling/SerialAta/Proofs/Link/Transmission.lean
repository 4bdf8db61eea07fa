import SerialAta.Proofs.Frame.WireForm
import SerialAta.Proofs.Link.Step
/-!
# SerialAta.Proofs.Link.Transmission

**What the link sends.** The outgoing queue is a queue on the lanes, too: whatever the host
drives and whenever frames are queued, the words that the link drives are its frames in the
order in which they were queued, each of them whole and once, with fillers in between
(`transmits_queue_in_order`). Only the last frame may be cut short, by the end of the run.

The invariant is `Link.InFlight`: what has been driven of the frame at the head of the queue.
Nothing has been driven of it outside of `sendData` and `sendEof`, and that is why receiving a
frame, which takes the same coder, does no harm: the coder matters only once the start of the
frame is out, and from there on the link does not look at the host until the frame has ended.
-/

namespace SerialAta

/-! ### Frames on the lanes -/

/-- A frame on the lanes: its start, its wire words, its end. -/
def laneForm (frame : Frame) : List PhyWord :=
  .ofPrimitive .sof :: (WireCoder.wireForm frame).map .ofData ++ [.ofPrimitive .eof]

/-- Words that are whole frames in the given order, with fillers before and after them. -/
inductive WholeFrames : List PhyWord → List Frame → Prop
  | nil : WholeFrames [] []
  | filler {words : List PhyWord} {frames : List Frame} {p : Primitive} :
      WholeFrames words frames → p ≠ .sof → p ≠ .eof →
      WholeFrames (words ++ [.ofPrimitive p]) frames
  | frame {words : List PhyWord} {frames : List Frame} (frame : Frame) :
      WholeFrames words frames → WholeFrames (words ++ laneForm frame) (frames ++ [frame])

/-- The words carry the frames that were sent, and after them at most the beginning of the
first of those that wait. -/
def Transmits (words : List PhyWord) (sent waiting : List Frame) : Prop :=
  ∃ whole cut, words = whole ++ cut ∧ WholeFrames whole sent ∧
    (cut = [] ∨ ∃ frame, waiting.head? = some frame ∧ cut <+: laneForm frame ∧
      cut ≠ laneForm frame)

theorem count_map_ofData (p : Primitive) (wires : List UInt32) :
    (wires.map PhyWord.ofData).count (.ofPrimitive p) = 0 := by
  refine List.count_eq_zero.mpr fun h => ?_
  obtain ⟨wire, -, heq⟩ := List.mem_map.mp h
  cases heq

theorem count_eof_laneForm (frame : Frame) :
    (laneForm frame).count (.ofPrimitive .eof) = 1 := by
  rw [laneForm, List.count_append, List.count_cons, count_map_ofData]
  decide

/-- As many ends of frames as frames. -/
theorem WholeFrames.count_eof {words : List PhyWord} {frames : List Frame}
    (h : WholeFrames words frames) : words.count (.ofPrimitive .eof) = frames.length := by
  induction h with
  | nil => rfl
  | @filler words frames p _ _ heof ih =>
      have hne : PhyWord.ofPrimitive p ≠ .ofPrimitive .eof := fun h =>
        heof (Primitive.code_inj.mp (congrArg PhyWord.data h))
      rw [List.count_append, ih, List.count_cons_of_ne hne]
      rfl
  | frame f _ ih =>
      rw [List.count_append, ih, count_eof_laneForm, List.length_append]
      rfl

namespace Link

variable {l : Link}

/-! ### The frame in flight -/

/-- No transmission has been agreed on, and one is offered only for a frame that is there. -/
def Undecided (l : Link) : Prop :=
  match l.state with
  | .sendData | .sendEof => False
  | .sendChkRdy => l.outbound ≠ []
  | _ => True

/-- What has been driven of the frame at the head of the queue. -/
inductive InFlight (l : Link) : List PhyWord → Prop
  /-- Nothing, and it is open when it will be. -/
  | quiet : l.Undecided → l.unsent = none → InFlight l []
  /-- Nothing, but its start is next. -/
  | agreed : l.state = .sendData → l.outbound ≠ [] → l.unsent = none → InFlight l []
  /-- Its start and the words `done`. -/
  | words {done todo : List UInt32} {rest : List Frame} :
      l.state = .sendData → l.outbound = (done ++ todo) :: rest → l.unsent = some todo →
      l.coder = (WireCoder.initial.putWords done).2 →
      InFlight l (.ofPrimitive .sof :: (WireCoder.initial.putWords done).1.map .ofData)
  /-- All but its end. -/
  | trailer {frame : Frame} {rest : List Frame} :
      l.state = .sendEof → l.outbound = frame :: rest →
      InFlight l (.ofPrimitive .sof :: (WireCoder.wireForm frame).map .ofData)

theorem inFlight_new (parameters : LinkParameters) : (new parameters).InFlight [] :=
  .quiet trivial rfl

/-- Frames that are queued have no effect on the one in flight. -/
theorem InFlight.of_queued {l' : Link} {cut : List PhyWord} {more : List Frame}
    (h : l.InFlight cut) (hs : l'.state = l.state) (hu : l'.unsent = l.unsent)
    (hc : l'.coder = l.coder) (ho : l'.outbound = l.outbound ++ more) : l'.InFlight cut := by
  have hne : l.outbound ≠ [] → l'.outbound ≠ [] := fun h => by simp [ho, h]
  cases h with
  | quiet hq hu' =>
      refine .quiet ?_ (hu.trans hu')
      unfold Undecided at hq ⊢
      rw [hs]
      cases h : l.state with
      | sendChkRdy => rw [h] at hq; exact hne hq
      | sendData => rw [h] at hq; exact hq
      | sendEof => rw [h] at hq; exact hq
      | _ => trivial
  | agreed hs' ho' hu' => exact .agreed (hs.trans hs') (hne ho') (hu.trans hu')
  | words hs' ho' hu' hc' =>
      have hqueue := ho.trans (congrArg (· ++ more) ho')
      exact .words (hs.trans hs') hqueue (hu.trans hu') (hc.trans hc')
  | trailer hs' ho' => exact .trailer (hs.trans hs') (ho.trans (congrArg (· ++ more) ho'))

/-- What has been driven of a frame lacks its end. -/
theorem InFlight.count_eof {cut : List PhyWord} (h : l.InFlight cut) :
    cut.count (.ofPrimitive .eof) = 0 := by
  have hsof : PhyWord.ofPrimitive .sof ≠ .ofPrimitive .eof := by decide
  cases h with
  | quiet => rfl
  | agreed => rfl
  | words => rw [List.count_cons_of_ne hsof, count_map_ofData]
  | trailer => rw [List.count_cons_of_ne hsof, count_map_ofData]

/-- What has been driven of a frame is the beginning of its form on the lanes. -/
theorem InFlight.beginning {cut : List PhyWord} (h : l.InFlight cut) :
    cut = [] ∨ ∃ frame, l.outbound.head? = some frame ∧ cut <+: laneForm frame ∧
      cut ≠ laneForm frame := by
  have hcount := h.count_eof
  have hne : ∀ frame, cut ≠ laneForm frame := by
    intro frame heq
    rw [heq, count_eof_laneForm] at hcount
    cases hcount
  cases h with
  | quiet => exact .inl rfl
  | agreed => exact .inl rfl
  | @words done todo rest _ ho =>
      refine .inr ⟨done ++ todo, by rw [ho]; rfl, ?_, hne _⟩
      rw [laneForm, WireCoder.wireForm_eq, WireCoder.putWords_append, List.append_assoc,
        List.map_append]
      exact ⟨_, by rw [List.cons_append, List.cons_append, List.append_assoc]⟩
  | @trailer frame rest _ ho =>
      exact .inr ⟨frame, by rw [ho]; rfl, List.prefix_append _ _, hne _⟩

/-- A step before a transmission is agreed on drives a filler. -/
theorem step_undecided (hq : l.Undecided) (hu : l.unsent = none) (host : PhyWord) :
    (∃ p, p ≠ .sof ∧ p ≠ .eof ∧ (l.step host).1 = .ofPrimitive p) ∧
      (l.step host).2.outbound = l.outbound ∧ (l.step host).2.InFlight [] := by
  unfold Undecided at hq
  cases hs : l.state with
  | sendAlign =>
      rw [step_sendAlign hs]
      refine ⟨⟨.align, by decide, by decide, rfl⟩, rfl, ?_⟩
      split <;> exact .quiet trivial hu
  | idle =>
      rw [step_idle hs]
      refine ⟨⟨.sync, by decide, by decide, rfl⟩, rfl, ?_⟩
      split
      · exact .quiet trivial hu
      · by_cases ho : l.outbound = []
        · rw [ho]
          exact .quiet trivial hu
        · rw [if_neg (by simpa using ho)]
          exact .quiet ho hu
  | sendChkRdy =>
      rw [hs] at hq
      rw [step_sendChkRdy hs]
      refine ⟨⟨.xRdy, by decide, by decide, rfl⟩, rfl, ?_⟩
      repeat' split
      · exact .agreed rfl hq hu
      · exact .quiet trivial hu
      · exact .quiet hq hu
  | sendData => rw [hs] at hq; exact hq.elim
  | sendEof => rw [hs] at hq; exact hq.elim
  | wait =>
      rw [step_wait hs]
      refine ⟨⟨.wtrm, by decide, by decide, rfl⟩, rfl, ?_⟩
      split <;> exact .quiet trivial hu
  | rcvChkRdy =>
      by_cases hw : host.asPrimitive? = some .sof
      · rw [step_rcvChkRdy_sof hs hw]
        exact ⟨⟨.rRdy, by decide, by decide, rfl⟩, rfl, .quiet trivial hu⟩
      · rw [step_rcvChkRdy_other hs hw]
        exact ⟨⟨.rRdy, by decide, by decide, rfl⟩, rfl, .quiet (by simp [Undecided, hs]) hu⟩
  | rcvData =>
      cases hw : host.primitive with
      | true =>
          rw [step_rcvData_primitive hs hw]
          refine ⟨⟨.rIp, by decide, by decide, rfl⟩, rfl, ?_⟩
          repeat' split
          all_goals exact .quiet trivial hu
      | false =>
          rw [step_rcvData_data hs hw]
          exact ⟨⟨.rIp, by decide, by decide, rfl⟩, rfl, .quiet trivial hu⟩
  | rcvEof =>
      rw [step_rcvEof hs]
      unfold endReceive
      refine ⟨⟨.rIp, by decide, by decide, rfl⟩, ?_⟩
      split
      · exact ⟨rfl, .quiet trivial hu⟩
      · exact ⟨rfl, .quiet trivial hu⟩
  | goodEnd =>
      rw [step_goodEnd hs]
      refine ⟨⟨.ok, by decide, by decide, rfl⟩, rfl, ?_⟩
      split <;> exact .quiet trivial hu
  | badEnd =>
      rw [step_badEnd hs]
      refine ⟨⟨.err, by decide, by decide, rfl⟩, rfl, ?_⟩
      split <;> exact .quiet trivial hu

/-- **One step on the lanes.** A step outside of a frame drives a filler; inside of a frame it
drives the word that comes next, and with the last one the frame leaves the queue. -/
theorem InFlight.step {cut : List PhyWord} (h : l.InFlight cut) (host : PhyWord) :
    (cut = [] ∧ (∃ p, p ≠ .sof ∧ p ≠ .eof ∧ (l.step host).1 = .ofPrimitive p) ∧
      (l.step host).2.outbound = l.outbound ∧ (l.step host).2.InFlight []) ∨
    ((l.step host).2.outbound = l.outbound ∧
      (l.step host).2.InFlight (cut ++ [(l.step host).1])) ∨
    ∃ frame, l.outbound = frame :: (l.step host).2.outbound ∧
      cut ++ [(l.step host).1] = laneForm frame ∧ (l.step host).2.InFlight [] := by
  cases h with
  | quiet hq hu => exact .inl ⟨rfl, step_undecided hq hu host⟩
  | agreed hs ho hu =>
      -- The start of the frame reloads the coder, whatever a reception has left in it.
      obtain ⟨frame, rest, hq⟩ := List.exists_cons_of_ne_nil ho
      refine .inr (.inl ?_)
      rw [step_sendData_start hs hq hu]
      exact ⟨rfl, @InFlight.words _ [] frame rest hs hq rfl rfl⟩
  | @words done todo rest hs ho hu hc =>
      refine .inr (.inl ?_)
      cases todo with
      | cons word todo =>
          have hput : WireCoder.initial.putWords (done ++ [word]) =
              ((WireCoder.initial.putWords done).1 ++ [(l.coder.putWord word).1],
                (l.coder.putWord word).2) := by
            rw [WireCoder.putWords_append, ← hc]
            rfl
          have hcut : (WireCoder.initial.putWords done).1.map PhyWord.ofData ++
              [.ofData (l.coder.putWord word).1] =
              (WireCoder.initial.putWords (done ++ [word])).1.map .ofData := by
            rw [hput, List.map_append]
            rfl
          rw [step_sendData_word hs ho hu, List.cons_append, hcut]
          have hsplit : done ++ word :: todo = done ++ [word] ++ todo := by
            rw [List.append_assoc, List.singleton_append]
          exact ⟨rfl, .words hs (hsplit ▸ ho) rfl (congrArg Prod.snd hput).symm⟩
      | nil =>
          -- All words are out, so the checksum makes the wire form whole.
          rw [List.append_nil] at ho
          have hcut : (WireCoder.initial.putWords done).1.map PhyWord.ofData ++
              [.ofData l.coder.putCrc.1] = (WireCoder.wireForm done).map .ofData := by
            rw [WireCoder.wireForm_eq, List.map_append, hc]
            rfl
          rw [step_sendData_crc hs ho hu, List.cons_append, hcut]
          exact ⟨rfl, .trailer rfl ho⟩
  | @trailer frame rest hs ho =>
      refine .inr (.inr ⟨frame, ?_⟩)
      rw [step_sendEof hs, ho]
      refine ⟨rfl, rfl, ?_⟩
      exact .quiet trivial rfl

/-- After a step, too, something is known of the frame in flight. -/
theorem InFlight.next {cut : List PhyWord} (h : l.InFlight cut) (host : PhyWord) :
    ∃ cut', (l.step host).2.InFlight cut' := by
  rcases h.step host with ⟨-, -, -, hnext⟩ | ⟨-, hnext⟩ | ⟨-, -, -, hnext⟩
  · exact ⟨_, hnext⟩
  · exact ⟨_, hnext⟩
  · exact ⟨_, hnext⟩

/-- A step queues nothing. -/
theorem InFlight.outbound_suffix {cut : List PhyWord} (h : l.InFlight cut) (host : PhyWord) :
    (l.step host).2.outbound <:+ l.outbound := by
  rcases h.step host with ⟨-, -, ho, -⟩ | ⟨ho, -⟩ | ⟨frame, ho, -, -⟩
  · exact ho ▸ List.suffix_rfl
  · exact ho ▸ List.suffix_rfl
  · exact ⟨[frame], ho.symm⟩

/-- What the link has driven so far: the frames `sent`, each whole, and after them what is
in flight. -/
def HasDriven (l : Link) (words : List PhyWord) (sent : List Frame) : Prop :=
  ∃ whole cut, words = whole ++ cut ∧ WholeFrames whole sent ∧ l.InFlight cut

theorem hasDriven_new (parameters : LinkParameters) : (new parameters).HasDriven [] [] :=
  ⟨[], [], rfl, .nil, inFlight_new parameters⟩

theorem HasDriven.of_queued {l' : Link} {words : List PhyWord} {sent more : List Frame}
    (h : l.HasDriven words sent) (hs : l'.state = l.state) (hu : l'.unsent = l.unsent)
    (hc : l'.coder = l.coder) (ho : l'.outbound = l.outbound ++ more) :
    l'.HasDriven words sent := by
  obtain ⟨whole, cut, hw, hwhole, hcut⟩ := h
  exact ⟨whole, cut, hw, hwhole, hcut.of_queued hs hu hc ho⟩

/-- What leaves the queue in a step has been sent with it. -/
theorem HasDriven.step {words : List PhyWord} {sent : List Frame} (h : l.HasDriven words sent)
    (host : PhyWord) :
    ∃ ended, l.outbound = ended ++ (l.step host).2.outbound ∧
      (l.step host).2.HasDriven (words ++ [(l.step host).1]) (sent ++ ended) := by
  obtain ⟨whole, cut, rfl, hwhole, hcut⟩ := h
  rcases hcut.step host with ⟨rfl, ⟨p, hsof, heof, hp⟩, ho, hnext⟩ | ⟨ho, hnext⟩ |
    ⟨frame, ho, hlane, hnext⟩
  · refine ⟨[], ho.symm, whole ++ [(l.step host).1], [], by simp, ?_, hnext⟩
    rw [hp, List.append_nil]
    exact .filler hwhole hsof heof
  · refine ⟨[], ho.symm, whole, cut ++ [(l.step host).1], List.append_assoc .., ?_, hnext⟩
    rw [List.append_nil]
    exact hwhole
  · refine ⟨[frame], ho, whole ++ laneForm frame, [], ?_, .frame frame hwhole, hnext⟩
    rw [List.append_assoc, hlane, List.append_nil]

theorem HasDriven.transmits {words : List PhyWord} {sent : List Frame}
    (h : l.HasDriven words sent) : Transmits words sent l.outbound := by
  obtain ⟨whole, cut, hw, hwhole, hcut⟩ := h
  exact ⟨whole, cut, hw, hwhole, hcut.beginning⟩

theorem HasDriven.count_eof {words : List PhyWord} {sent : List Frame}
    (h : l.HasDriven words sent) : words.count (.ofPrimitive .eof) = sent.length := by
  obtain ⟨whole, cut, rfl, hwhole, hcut⟩ := h
  rw [List.count_append, hwhole.count_eof, hcut.count_eof, Nat.add_zero]

/-- In `sendData` there is a frame to send. -/
theorem HasDriven.outbound_ne_nil {words : List PhyWord} {sent : List Frame}
    (h : l.HasDriven words sent) (hs : l.state = .sendData) : l.outbound ≠ [] := by
  obtain ⟨_, _, _, _, hcut⟩ := h
  cases hcut with
  | quiet hq => rw [Undecided, hs] at hq; exact hq.elim
  | agreed _ ho => exact ho
  | words _ ho => rw [ho]; exact List.cons_ne_nil _ _
  | trailer _ ho => rw [ho]; exact List.cons_ne_nil _ _

end Link

/-! ### Runs -/

/-- What may happen to a link. -/
inductive LinkEvent
  /-- A step, with the word of the host. -/
  | step (host : PhyWord)
  /-- A frame is queued. -/
  | enqueue (frame : Frame)

/-- The frames queued in a run, in order. -/
def LinkEvent.queued : List LinkEvent → List Frame
  | [] => []
  | .step _ :: events => queued events
  | .enqueue frame :: events => frame :: queued events

namespace Link

/-- The words that the link drives in a run, and the link after it. -/
def run (l : Link) : List LinkEvent → List PhyWord × Link
  | [] => ([], l)
  | .step host :: events =>
    let (word, l) := l.step host
    let (words, l) := l.run events
    (word :: words, l)
  | .enqueue frame :: events => (l.enqueue frame).run events

theorem run_step (l : Link) (host : PhyWord) (events : List LinkEvent) :
    l.run (.step host :: events) =
      ((l.step host).1 :: ((l.step host).2.run events).1, ((l.step host).2.run events).2) := rfl

theorem run_enqueue (l : Link) (frame : Frame) (events : List LinkEvent) :
    l.run (.enqueue frame :: events) = (l.enqueue frame).run events := rfl

theorem HasDriven.run {l : Link} {words : List PhyWord} {sent : List Frame}
    (h : l.HasDriven words sent) (events : List LinkEvent) :
    ∃ ended, l.outbound ++ LinkEvent.queued events = ended ++ (l.run events).2.outbound ∧
      (l.run events).2.HasDriven (words ++ (l.run events).1) (sent ++ ended) := by
  induction events generalizing l words sent with
  | nil => exact ⟨[], List.append_nil _, by simpa [Link.run] using h⟩
  | cons event events ih =>
      cases event with
      | step host =>
          obtain ⟨ended, ho, hnext⟩ := h.step host
          obtain ⟨ended', ho', hlast⟩ := ih hnext
          refine ⟨ended ++ ended', ?_, ?_⟩
          · rw [LinkEvent.queued, ho, List.append_assoc, ho', List.append_assoc]
            rfl
          · rw [List.append_assoc, List.append_assoc] at hlast
            exact hlast
      | enqueue frame =>
          have hqueued : (l.enqueue frame).HasDriven words sent := h.of_queued rfl rfl rfl rfl
          obtain ⟨ended, ho, hlast⟩ := ih hqueued
          refine ⟨ended, ?_, hlast⟩
          rw [Link.run, ← ho, Link.enqueue, List.append_assoc]
          rfl

/-- **Frames are sent once each, whole and in the order of the queue,** whatever the host drives
and whenever they are queued. The frames queued in a run from the beginning are those that
the words driven carry, followed by those that are pending; of these at most the first has
begun. There is an end of a frame on the lanes for each frame that left the queue, and the
link does not get to send data without a frame. -/
theorem transmits_queue_in_order (parameters : LinkParameters) (events : List LinkEvent) :
    let words := ((new parameters).run events).1
    let l := ((new parameters).run events).2
    ∃ sent, LinkEvent.queued events = sent ++ l.outbound ∧ Transmits words sent l.outbound ∧
      l.pending + words.count (.ofPrimitive .eof) = (LinkEvent.queued events).length ∧
      (l.state = .sendData → l.outbound ≠ []) := by
  intro words l
  obtain ⟨sent, ho, h⟩ := (hasDriven_new parameters).run events
  refine ⟨sent, ho, h.transmits, ?_, h.outbound_ne_nil⟩
  have hcount : words.count (.ofPrimitive .eof) = sent.length := h.count_eof
  have hlength : (LinkEvent.queued events).length = sent.length + l.outbound.length := by
    rw [← List.length_append, ← ho]
    rfl
  rw [hcount, hlength, pending, Nat.add_comm]

end Link

end SerialAta
