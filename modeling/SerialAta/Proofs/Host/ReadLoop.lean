import SerialAta.Proofs.Host.StepBounds
import SerialAta.Proofs.Host.Verdicts
import SerialAta.Proofs.Link.Resynchronisation
/-!
# SerialAta.Proofs.Host.ReadLoop

**Every program of the host comes to an end** (`Host.programs_bounded`), a read of sectors, too,
although its loop goes on for as long as data come.

Data that came without end would have to be queued meanwhile, and for that the drive would have to
take a frame. It does not: after the command the link is between two frames, from there it turns
to a frame of the host only for XRDY (`LinkState.isOutgoing_next`), and in the loop the host says
other words. So each pass that goes on takes one frame out of the queue and puts none into it
(`Host.BetweenFrames.receiveFrame`), and the passes are counted by the frames that are pending.
-/

namespace SerialAta

/-! ### A link that is not asked to take a frame -/

/-- The host has not announced a frame, and none comes in. -/
def LinkState.isOutgoing : LinkState → Bool
  | idle | sendChkRdy | sendData | sendEof | wait => true
  | _ => false

/-- Only XRDY turns the link to a frame of the host. -/
theorem LinkState.isOutgoing_next {state : LinkState} {seen : Observation}
    (hs : state.isOutgoing = true) (h : seen.host ≠ some .xRdy) :
    (state.next seen).isOutgoing = true := by
  cases state with
  | idle =>
      simp only [next]
      rw [if_neg h]
      split <;> rfl
  | sendChkRdy =>
      simp only [next]
      split
      · rfl
      · next hasked => exact absurd hasked h
      · rfl
  | sendData =>
      simp only [next]
      split <;> rfl
  | sendEof => rfl
  | wait =>
      simp only [next]
      split <;> rfl
  | _ => cases hs

theorem LinkState.judged_of_driven {state : LinkState} {good : Bool}
    (h : state.driven = some (if good then .ok else .err)) :
    state = if good then .goodEnd else .badEnd := by
  cases good with
  | true =>
      cases state with
      | goodEnd => rfl
      | _ => cases h
  | false =>
      cases state with
      | badEnd => rfl
      | _ => cases h

namespace Link

variable {l : Link}

/-- A link that is not asked to take a frame takes none. -/
theorem isOutgoing_after {words : List PhyWord} (hs : l.state.isOutgoing = true)
    (hwords : ∀ w ∈ words, w.asPrimitive? ≠ some .xRdy) :
    (l.after words).state.isOutgoing = true ∧ (l.after words).received = l.received := by
  induction words generalizing l with
  | nil => exact ⟨hs, rfl⟩
  | cons word words ih =>
      obtain ⟨seen, hseen, hnext⟩ := step_state l word
      have hlistens : seen.host ≠ some .xRdy := hseen ▸ hwords word (List.mem_cons_self ..)
      have hs' : (l.step word).2.state.isOutgoing = true :=
        hnext ▸ LinkState.isOutgoing_next hs hlistens
      have hne : l.state ≠ .rcvEof := fun heq => by rw [heq] at hs; cases hs
      rw [after_cons, ← step_received_of_ne_rcvEof hne word]
      exact ih hs' fun w hw => hwords w (List.mem_cons_of_mem _ hw)

/-- Under SYNC a link between two frames goes no further than to offer one. -/
theorem after_sync (hs : l.state = .idle ∨ l.state = .sendChkRdy) (n : Nat) :
    let l' := l.after (List.replicate n (.ofPrimitive .sync))
    (l'.state = .idle ∨ l'.state = .sendChkRdy) ∧ l'.outbound = l.outbound := by
  induction n generalizing l with
  | zero => exact ⟨hs, rfl⟩
  | succ n ih =>
      have hstep : ((l.step (.ofPrimitive .sync)).2.state = .idle ∨
          (l.step (.ofPrimitive .sync)).2.state = .sendChkRdy) ∧
          (l.step (.ofPrimitive .sync)).2.outbound = l.outbound := by
        rcases hs with hs | hs
        · rw [step_idle hs, if_neg (by decide)]
          refine ⟨?_, rfl⟩
          cases l.outbound.isEmpty with
          | true => exact .inl rfl
          | false => exact .inr rfl
        · rw [step_sendChkRdy hs]
          exact ⟨.inr rfl, rfl⟩
      rw [← hstep.2]
      exact ih hstep.1

/-- Under R_RDY a frame may go out, but after it the link waits for the verdict. -/
theorem after_rRdy {queue : List Frame}
    (hs : l.state = .wait ∨ l.state.isOutgoing = true ∧ l.outbound = queue) (n : Nat) :
    let l' := l.after (List.replicate n (.ofPrimitive .rRdy))
    l'.state = .wait ∨ l'.state.isOutgoing = true ∧ l'.outbound = queue := by
  induction n generalizing l with
  | zero => exact hs
  | succ n ih =>
      have hstep : (l.step (.ofPrimitive .rRdy)).2.state = .wait ∨
          (l.step (.ofPrimitive .rRdy)).2.state.isOutgoing = true ∧
          (l.step (.ofPrimitive .rRdy)).2.outbound = queue := by
        rcases hs with hs | ⟨hs, hqueue⟩
        · rw [step_wait hs]
          exact .inl rfl
        · by_cases hlast : l.state = .sendEof
          · rw [step_sendEof hlast]
            exact .inl rfl
          · obtain ⟨seen, hseen, hnext⟩ := step_state l (.ofPrimitive .rRdy)
            rw [PhyWord.asPrimitive?_ofPrimitive] at hseen
            rw [hnext, step_outbound, if_neg hlast]
            exact .inr ⟨LinkState.isOutgoing_next hs (by rw [hseen]; decide), hqueue⟩
      exact ih hstep

end Link

/-- A host that does not ask the drive to take a frame: it takes none. -/
theorem Backdrop.Linked.after_listening {b : Backdrop} {l : Link} {h : Host} (hl : b.Linked l h)
    (hreceived : l.received = []) (hs : l.state.isOutgoing = true) {words : List PhyWord}
    (hwords : ∀ w ∈ words, w.asPrimitive? ≠ some .xRdy) :
    b.Linked (l.after words) (h.after words) ∧ h.handles words = [] :=
  hl.after_words hreceived ((Link.isOutgoing_after hs hwords).2.trans hreceived)

namespace Host

variable {h h' : Host}

/-! ### Between two frames -/

/-- A host that has come about, its drive up and between two frames. -/
structure BetweenFrames (h : Host) : Prop where
  reachable : h.Reachable
  isReady : h.drive.isReady = true
  idle : h.drive.link.state = .idle

theorem Reachable.betweenFrames {b : Backdrop} {parameters : LinkParameters} {queue : List Frame}
    (hr : h.Reachable) (hq : b.Quiet .idle parameters queue h) :
    h.BetweenFrames ∧ h.drive.link.outbound = queue := by
  obtain ⟨l, hl, hlinked⟩ := hq
  obtain rfl := hlinked.link
  exact ⟨⟨hr, hlinked.isReady, hl.state⟩, hl.outbound⟩

/-- Whoever has got the verdict on a frame has brought the link to rest. -/
theorem Reachable.betweenFrames_of_sendFrame (hr : h.Reachable) {frame : Frame} {verdict : Bool}
    (hrun : (HostM.sendFrame frame).run h = .ok verdict h') : h'.BetweenFrames := by
  have hr' : h'.Reachable := HostM.leaves_of_ok hrun ▸ hr.leaves (HostM.sendFrame_steps frame)
  obtain ⟨requests, polls, hh', -, hheard⟩ := HostM.sendFrame_ok hrun
  let said : List PhyWord := List.replicate (requests + 1) (.ofPrimitive .xRdy) ++
    laneForm frame ++ List.replicate polls (.ofPrimitive .wtrm)
  have hended : h' = (h.after said).after
      (List.replicate 1 (.ofPrimitive .wtrm) ++ [.ofPrimitive .sync]) := by
    rw [hh', HostM.frameDialogue, List.replicate_succ' (n := polls), ← Host.after_append]
    simp only [said, List.append_assoc, List.replicate_one]
  -- A verdict is driven in the two states that SYNC leads out of.
  have hsaid := hr.after said
  have hword := PhyWord.carries_iff.mpr hheard
  have hl := linked (hsaid.isReady_of_hears hword)
  rw [hl.hears hsaid.settled.received] at hword
  have hjudged : (h.after said).drive.link.state = if verdict then .goodEnd else .badEnd := by
    rcases Link.driven_of_carries hword with hdriven | ⟨-, hstart, -⟩
    · exact LinkState.judged_of_driven hdriven
    · cases verdict <;> cases hstart
  obtain ⟨-, hl', -⟩ := hl.after_judged (p := if verdict then .ok else .err)
    hsaid.settled.received (by cases verdict <;> simp [hjudged]) 1
  rw [← hended] at hl'
  exact ⟨hr', hl'.isReady, by rw [hl'.link]⟩

theorem Reachable.betweenFrames_of_sendFis (hr : h.Reachable) {fis : Fis}
    (hrun : (HostM.sendFis fis).run h = .ok () h') : h'.BetweenFrames := by
  obtain ⟨good, h₁, hframe, hrun⟩ := HostM.ok_of_bind hrun
  cases good with
  | true =>
      obtain ⟨-, rfl⟩ := EStateM.Result.ok.inj hrun
      exact hr.betweenFrames_of_sendFrame hframe
  | false => cases hrun

/-- A FIS that the drive has room for is sent if the link is between two frames. -/
theorem Reachable.run_sendFis (hr : h.Reachable) (hready : h.drive.isReady = true)
    (hidle : h.drive.link.state = .idle) (hsteps : 2 ≤ h.stepLimit) {fis : Fis}
    (hmax : fis.toWords.length ≤ h.drive.link.parameters.maxFrameWords) :
    (HostM.sendFis fis).run h = .ok () ((HostM.sendFis fis).leaves h) := by
  obtain ⟨h', hrun, -⟩ := HostM.sendFis_does (.inl hidle) hsteps fis hmax rfl h
    (hr.quiet_of_open hready (.inl hidle))
  rw [hrun, HostM.leaves_of_ok hrun]

/-- A frame that the host has received has left the queue, and none has come into it. -/
theorem BetweenFrames.receiveFrame (hb : h.BetweenFrames) {got : ReceivedFrame}
    (hrun : HostM.receiveFrame.run h = .ok got h') :
    h'.BetweenFrames ∧ ∃ frame, h.drive.link.outbound = frame :: h'.drive.link.outbound := by
  have hr' : h'.Reachable :=
    HostM.leaves_of_ok hrun ▸ hb.reachable.leaves HostM.receiveFrame_steps
  obtain ⟨waits, requests, limit, wire, h₁, hsof, hcollect, rfl, rfl⟩ := HostM.receiveFrame_ok hrun
  let opening : List PhyWord := List.replicate waits (.ofPrimitive .sync) ++
    List.replicate requests (.ofPrimitive .rRdy)
  have hlistens : ∀ w ∈ opening, w.asPrimitive? ≠ some .xRdy := by
    intro w hw
    rcases List.mem_append.mp hw with hw | hw
    · rw [List.eq_of_mem_replicate hw]
      decide
    · rw [List.eq_of_mem_replicate hw]
      decide
  have hbegun := hb.reachable.after opening
  obtain ⟨frame, queue, hs, ho, hl⟩ := hbegun.sends_of_sof hsof
  -- The drive has not been through another frame before this one starts.
  have hsame : (h.after opening).drive.link.outbound = h.drive.link.outbound := by
    have hlinked := ((linked hb.isReady).after_listening hb.reachable.settled.received
      (by rw [hb.idle]; rfl) hlistens).1
    obtain ⟨hoffers, hqueue⟩ := Link.after_sync (.inl hb.idle) waits
    have houtgoing : (h.drive.link.after
        (List.replicate waits (.ofPrimitive .sync))).state.isOutgoing = true := by
      rcases hoffers with hs | hs
      · rw [hs]
        rfl
      · rw [hs]
        rfl
    have hsending := Link.after_rRdy (.inr ⟨houtgoing, hqueue⟩) requests
    rw [← Link.after_append] at hsending
    rw [hlinked.link] at hs ⊢
    rcases hsending with hwait | ⟨-, hsame⟩
    · rw [hs] at hwait
      cases hwait
    · exact hsame
  obtain ⟨-, -, hwaits⟩ := HostM.collect_ok hl hs ho rfl hbegun.settled.received hcollect
  obtain ⟨h₂, hverdict, hquiet⟩ := HostM.giveVerdict_does _ _ _ (ReceivedFrame.ofWire wire).intact
    h₁ hwaits
  obtain ⟨-, rfl⟩ := HostM.send_ok hverdict
  obtain ⟨hb', hqueue⟩ := hr'.betweenFrames hquiet
  exact ⟨hb', frame, by rw [← hsame, ho, hqueue]⟩

/-- A FIS, too. -/
theorem BetweenFrames.receiveFis (hb : h.BetweenFrames) {got : Fis}
    (hrun : HostM.receiveFis.run h = .ok got h') :
    h'.BetweenFrames ∧ h'.drive.link.pending + 1 = h.drive.link.pending := by
  obtain ⟨frame, h₁, hframe, hrun⟩ := HostM.ok_of_bind hrun
  obtain ⟨hb', head, hqueue⟩ := hb.receiveFrame hframe
  have hsame : h₁ = h' := by
    split at hrun
    · split at hrun
      · exact (EStateM.Result.ok.inj hrun).2
      · cases hrun
    · cases hrun
  rw [← hsame]
  refine ⟨hb', ?_⟩
  rw [Link.pending, Link.pending, hqueue, List.length_cons]

/-! ### The passes of the loop -/

/-- Passes of the loop of a read that go on: `payloads` come, one data FIS after the other. -/
inductive Passes : Host → List (List UInt32) → Host → Prop
  | none (h : Host) : Passes h [] h
  | next {h h₁ h₂ : Host} {payload : List UInt32} {payloads : List (List UInt32)} :
      HostM.receiveFis.run h = .ok (.data payload) h₁ → Passes h₁ payloads h₂ →
      Passes h (payload :: payloads) h₂

/-- The loop goes no further: what comes next is no data, or nothing. -/
def Exhausted (h : Host) : Prop :=
  ∀ payload h', HostM.receiveFis.run h ≠ .ok (.data payload) h'

variable {payloads : List (List UInt32)}

/-- Each pass that goes on takes one frame from those that are pending. -/
theorem BetweenFrames.passes (hb : h.BetweenFrames) (hp : Passes h payloads h') :
    h'.BetweenFrames ∧ h'.drive.link.pending + payloads.length = h.drive.link.pending := by
  induction hp with
  | none h => exact ⟨hb, rfl⟩
  | next hdata _ ih =>
      obtain ⟨hb₁, hone⟩ := hb.receiveFis hdata
      obtain ⟨hb', hothers⟩ := ih hb₁
      refine ⟨hb', ?_⟩
      rw [List.length_cons]
      omega

/-- So there is a last one. -/
theorem BetweenFrames.exists_passes (hb : h.BetweenFrames) :
    ∃ payloads h', Passes h payloads h' ∧ h'.Exhausted := by
  induction hn : h.drive.link.pending generalizing h with
  | zero =>
      refine ⟨[], h, .none h, fun payload h' hdata => ?_⟩
      have hone := (hb.receiveFis hdata).2
      omega
  | succ n ih =>
      by_cases hmore : ∃ payload h₁, HostM.receiveFis.run h = .ok (.data payload) h₁
      · obtain ⟨payload, h₁, hdata⟩ := hmore
        obtain ⟨hb₁, hone⟩ := hb.receiveFis hdata
        obtain ⟨payloads, h', hpasses, hlast⟩ := ih hb₁ (by omega)
        exact ⟨payload :: payloads, h', .next hdata hpasses, hlast⟩
      · exact ⟨[], h, .none h, fun payload h' hdata => hmore ⟨payload, h', hdata⟩⟩

/-- In the last pass it does not matter how many frames there may be after it. -/
theorem Exhausted.receivePayloads (hlast : h.Exhausted) (words : List UInt32) (frames : Nat) :
    (HostM.receivePayloads words (frames + 1)).run h = (HostM.receivePayloads words 1).run h := by
  rw [HostM.receivePayloads, HostM.receivePayloads]
  cases hrun : HostM.receiveFis.run h with
  | error e h' => rw [HostM.run_bind_error hrun, HostM.run_bind_error hrun]
  | ok fis h' =>
      rw [HostM.run_bind_ok hrun, HostM.run_bind_ok hrun]
      cases fis with
      | data payload => exact absurd hrun (hlast payload h')
      | _ => rfl

/-- With room for all the frames that come, the loop is its passes that go on and the last one. -/
theorem Passes.receivePayloads (hp : Passes h payloads h') (hlast : h'.Exhausted)
    (words : List UInt32) {frames : Nat} (hframes : payloads.length < frames) :
    (HostM.receivePayloads words frames).run h =
      (HostM.receivePayloads (words ++ payloads.flatten) 1).run h' := by
  induction hp generalizing words frames with
  | none h =>
      obtain ⟨n, rfl⟩ : ∃ n, frames = n + 1 := ⟨frames - 1, by omega⟩
      rw [List.flatten_nil, List.append_nil]
      exact hlast.receivePayloads words n
  | next hdata _ ih =>
      obtain ⟨n, rfl⟩ : ∃ n, frames = n + 1 := ⟨frames - 1, by omega⟩
      rw [List.length_cons] at hframes
      rw [HostM.receivePayloads, HostM.run_bind_ok hdata, List.flatten_cons, ← List.append_assoc]
      exact ih hlast _ (by omega)

/-! ### Every program -/

/-- **Every program of the host comes to an end.** Whatever state a reachable host is in, a frame is
sent and received in a number of steps that the step limit bounds, and so are the commands that
are made of these; the step limit is also what every timeout tells.

A read goes on while data come. Once its command has been sent, the drive takes no frame any more,
and each pass that goes on lowers the number of pending frames by one. So there are no more of
them than frames were pending, and one pass is the last. The read is just these passes, and not
cut short by the count of frames that it keeps. -/
theorem programs_bounded (hreach : h.Reachable) :
    let limit := h.stepLimit
    (∀ frame, (HostM.sendFrame frame).EndsWithin h (2 * limit + frame.length + 4)) ∧
    HostM.receiveFrame.EndsWithin h (3 * limit + 1) ∧
    HostM.bringUp.EndsWithin h (5 * limit) ∧ HostM.awaitIdle.EndsWithin h limit ∧
    (∀ lba words, (HostM.writeSectors lba words).EndsWithin h
      ((chunks maxDataWords words).length * (5 * limit + 6) + words.length + (5 * limit + 10))) ∧
    (∀ words, (HostM.writeBuffer words).EndsWithin h (10 * limit + words.length + 16)) ∧
    HostM.readBuffer.EndsWithin h (8 * limit + 11) ∧
    ∀ lba count,
      let command := HostM.sendFis (.hostRegister (.ofCommand .readDma lba count))
      let h₁ := command.leaves h
      let pending := h₁.drive.link.pending
      (HostM.readSectors lba count).EndsWithin h
        (2 * limit + 9 + (pending + 1) * (3 * limit + 1)) ∧
      (command.run h = .ok () h₁ →
        (∃ words, (HostM.readSectors lba count).leaves h = h₁.after words ∧
          h₁.handles words = [] ∧ words.length ≤ (pending + 1) * (3 * limit + 1)) ∧
        (∀ payloads h₂, Passes h₁ payloads h₂ →
          h₂.drive.link.pending + payloads.length = pending) ∧
        ∃ payloads h₂, Passes h₁ payloads h₂ ∧ h₂.Exhausted ∧ payloads.length ≤ pending ∧
          (HostM.readSectors lba count).run h =
            (HostM.receivePayloads payloads.flatten 1).run h₂ ∧
          ∀ frames, pending < frames →
            (HostM.receivePayloads [] frames).run h₁ = (HostM.readSectors lba count).run h) := by
  intro limit
  refine ⟨fun frame => (HostM.sendFrame_within frame).endsWithin,
    HostM.receiveFrame_within.endsWithin, HostM.bringUp_within.endsWithin,
    HostM.awaitIdle_within.endsWithin,
    fun lba words => (HostM.writeSectors_within lba words).endsWithin,
    fun words => (HostM.writeBuffer_within words).endsWithin,
    HostM.readBuffer_within.endsWithin, ?_⟩
  intro lba count command h₁ pending
  refine ⟨(HostM.readSectors_within lba count).endsWithin, fun hcommand => ?_⟩
  have hb : h₁.BetweenFrames := hreach.betweenFrames_of_sendFis hcommand
  have hread : (HostM.readSectors lba count).run h =
      (HostM.receivePayloads [] (pending + 1)).run h₁ := HostM.run_bind_ok hcommand
  refine ⟨?_, fun payloads h₂ hpasses => (hb.passes hpasses).2, ?_⟩
  · have hlimit : h₁.stepLimit = limit := (HostM.sendFis_steps _).stepLimit_leaves h
    obtain ⟨⟨signals, hleaves, hlistens, hlength⟩, -⟩ :=
      HostM.receivePayloads_within [] (pending + 1) hlimit
    obtain ⟨words, rfl, hwords⟩ := HostM.exists_words_of_listens hlistens
    rw [List.length_map] at hlength
    refine ⟨words, ?_, ?_, hlength⟩
    · rw [after_eq_through, ← hleaves, HostM.leaves, HostM.leaves, hread]
    · exact ((linked hb.isReady).after_listening hb.reachable.settled.received
        (by rw [hb.idle]; rfl) hwords).2
  · obtain ⟨payloads, h₂, hpasses, hlast⟩ := hb.exists_passes
    have hcount := (hb.passes hpasses).2
    have hloop : ∀ frames, pending < frames → (HostM.receivePayloads [] frames).run h₁ =
        (HostM.receivePayloads payloads.flatten 1).run h₂ := fun frames hframes =>
      hpasses.receivePayloads hlast [] (by omega)
    have hown := hread.trans (hloop _ (Nat.lt_succ_self _))
    exact ⟨payloads, h₂, hpasses, hlast, by omega, hown, fun frames hframes =>
      (hloop frames hframes).trans hown.symm⟩

/-- A read while the words of the sector buffer are still to come: two frames are pending when its
loop begins. -/
theorem programs_bounded_stale :
    let new : Host := .new (.new { LinkParameters.standard with alignCount := 1 } (.zeroed 0))
    let up := HostM.awaitIdle.leaves (HostM.bringUp.leaves new)
    let h := HostM.receiveFis.leaves
      ((HostM.sendFis (.hostRegister (.ofCommand .readBuffer 0 1))).leaves up)
    h.Reachable ∧ ∃ h₁,
      (HostM.sendFis (.hostRegister (.ofCommand .readDma 0 1))).run h = .ok () h₁ ∧
      h₁.drive.link.pending = 2 ∧
      ∃ payloads h₂, Passes h₁ payloads h₂ ∧ h₂.Exhausted ∧ payloads.length ≤ 2 ∧
        (HostM.readSectors 0 1).run h = (HostM.receivePayloads payloads.flatten 1).run h₂ := by
  intro new up h
  have hreach : h.Reachable := .leaves HostM.receiveFis_steps (.leaves (HostM.sendFis_steps _)
    (.leaves HostM.awaitIdle_steps (.leaves HostM.bringUp_steps (.new _ _))))
  obtain ⟨hready, hidle, hsteps, hmax⟩ : h.drive.isReady = true ∧ h.drive.link.state = .idle ∧
      2 ≤ h.stepLimit ∧ 5 ≤ h.drive.link.parameters.maxFrameWords := by decide +kernel
  have hcommand := @Reachable.run_sendFis h hreach hready hidle hsteps
    (.hostRegister (.ofCommand .readDma 0 1)) hmax
  have hpending : ((HostM.sendFis (.hostRegister (.ofCommand .readDma 0 1))).leaves
      h).drive.link.pending = 2 := by decide +kernel
  obtain ⟨-, hloop⟩ := (programs_bounded hreach).2.2.2.2.2.2.2 0 1
  obtain ⟨-, -, payloads, h₂, hpasses, hlast, hcount, hrun, -⟩ := hloop hcommand
  rw [hpending] at hcount
  exact ⟨hreach, _, hcommand, hpending, payloads, h₂, hpasses, hlast, hcount, hrun⟩

end Host

end SerialAta
