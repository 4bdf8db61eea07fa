import SerialAta.Proofs.Host.Conversation
/-!
# SerialAta.Proofs.Host.Verdicts

**Host and drive agree on every frame** (`sendFrame_verdict`). The host believes what it hears,
so what has to be shown is that nothing it hears is meant for another frame: not an R_RDY, not
an OK, not an ERR, wherever the drive stands when the host begins.

The R_RDY is the crux. A drive in the middle of something else does not get out of it by XRDY:
it goes on repeating what it says there, and the host gives up. So where an R_RDY has been heard,
the drive has done nothing since the host began but turn to it (`Reachable.after_requests`; the
induction goes back from the R_RDY, one XRDY at a time). From there on all is determined.
-/

namespace SerialAta

/-- Where XRDY of the host is heeded, at once or when the opening burst is over. -/
def LinkState.HeedsRequest : LinkState → Prop
  | sendAlign _ | idle | sendChkRdy | rcvChkRdy => True
  | _ => False

namespace Link

variable {l : Link}

/-- A step under XRDY that ends where XRDY is heeded has begun there, too, and the queue has
stayed as it was. -/
theorem step_xRdy (h : (l.step (.ofPrimitive .xRdy)).2.state.HeedsRequest) :
    l.state.HeedsRequest ∧ (l.step (.ofPrimitive .xRdy)).2.outbound = l.outbound ∧
      (l.step (.ofPrimitive .xRdy)).2.parameters = l.parameters := by
  have hx := PhyWord.asPrimitive?_ofPrimitive .xRdy
  cases hs : l.state with
  | sendAlign sent => rw [step_sendAlign hs]; exact ⟨trivial, rfl, rfl⟩
  | idle => rw [step_idle hs]; exact ⟨trivial, rfl, rfl⟩
  | sendChkRdy => rw [step_sendChkRdy hs]; exact ⟨trivial, rfl, rfl⟩
  | rcvChkRdy => rw [step_rcvChkRdy_other hs (by decide)]; exact ⟨trivial, rfl, rfl⟩
  | sendData =>
      rw [step_sendData hs] at h
      dsimp only at h
      split at h <;> exact h.elim
  | sendEof => rw [step_sendEof hs] at h; exact h.elim
  | wait => rw [step_wait hs, hx] at h; exact h.elim
  | rcvData => rw [step_rcvData_primitive hs rfl, hx] at h; exact h.elim
  | rcvEof =>
      rw [step_rcvEof hs] at h
      dsimp only at h
      split at h <;> exact h.elim
  | goodEnd => rw [step_goodEnd hs, hx] at h; exact h.elim
  | badEnd => rw [step_badEnd hs, hx] at h; exact h.elim

/-- A word that does not move the link does not move it however often it comes. -/
theorem after_replicate {word : PhyWord} (h : (l.step word).2 = l) (n : Nat) :
    l.after (List.replicate n word) = l := by
  induction n with
  | zero => rfl
  | succ n ih => rw [List.replicate_succ, after_cons, h, ih]

/-- A whole frame, from the readiness for it on. -/
theorem after_laneForm (h : l.state = .rcvChkRdy) (frame : Frame) :
    l.after (laneForm frame) = l.closing (WireCoder.wireForm frame) :=
  after_wire h _

end Link

namespace Host

variable {h : Host}

/-! ### Up to the readiness of the drive -/

/-- If the drive heeds XRDY after the host has sent some, it has done nothing else meanwhile. -/
theorem Reachable.after_requests (hr : h.Reachable) {n : Nat}
    (hheeds : (h.after (List.replicate n (.ofPrimitive .xRdy))).drive.link.state.HeedsRequest) :
    let h' := h.after (List.replicate n (.ofPrimitive .xRdy))
    h'.backdrop = h.backdrop ∧ h'.drive.link.outbound = h.drive.link.outbound ∧
      h'.drive.link.parameters = h.drive.link.parameters ∧
      h.handles (List.replicate n (.ofPrimitive .xRdy)) = [] := by
  induction n with
  | zero => exact ⟨rfl, rfl, rfl, rfl⟩
  | succ n ih =>
      intro h'
      let h₁ := h.after (List.replicate n (.ofPrimitive .xRdy))
      have hr₁ : h₁.Reachable := hr.after _
      have hlast : h' = h₁.after [.ofPrimitive .xRdy] := by
        rw [← Host.after_append, ← List.replicate_succ']
      have hhandles : h.handles (List.replicate (n + 1) (.ofPrimitive .xRdy)) =
          h.handles (List.replicate n (.ofPrimitive .xRdy)) ++
            h₁.handles [.ofPrimitive .xRdy] := by
        rw [List.replicate_succ', handles_append]
      have hheeds' : (h₁.after [.ofPrimitive .xRdy]).drive.link.state.HeedsRequest := hlast ▸ hheeds
      rw [hhandles, hlast]
      cases hready : h₁.drive.isReady with
      | false =>
          obtain ⟨-, hnone, hbackdrop, hlink⟩ :=
            after_asleep hr₁.sleepsUntilReady hready (.ofPrimitive .xRdy)
          rw [hlink] at hheeds' ⊢
          obtain ⟨hbackdrop', hqueue, hparameters, hnone'⟩ := ih hheeds'
          rw [hbackdrop, hnone, hnone']
          exact ⟨hbackdrop', hqueue, hparameters, rfl⟩
      | true =>
          have hl := linked hready
          have hreceived := hr₁.settled.received
          cases ha : h₁.drive.link.accepted? (.ofPrimitive .xRdy) with
          | none =>
              obtain ⟨-, hl', hnone⟩ := hl.after_word hreceived ha
              rw [hl'.link] at hheeds' ⊢
              obtain ⟨hstart, hqueue, hparameters⟩ := Link.step_xRdy hheeds'
              obtain ⟨hbackdrop', hqueue', hparameters', hnone'⟩ := ih hstart
              rw [hnone, hnone', hl'.backdrop, hqueue, hqueue', hparameters, hparameters']
              exact ⟨hbackdrop', rfl, rfl, rfl⟩
          | some frame =>
              -- XRDY does not lead out of the verdict on a frame.
              obtain ⟨-, hl', -⟩ := hl.after_accepting hreceived ha
              rw [hl'.link] at hheeds'
              have hstart := (Link.step_xRdy hheeds').1
              rw [Link.rcvEof_of_accepted? ha] at hstart
              exact hstart.elim

/-- If the host hears R_RDY, the drive is ready for a frame and has done nothing meanwhile but
get ready. -/
theorem Reachable.quiet_of_rRdy (hr : h.Reachable) {n : Nat}
    (hheard : ((h.after (List.replicate n (.ofPrimitive .xRdy))).hears
      (.ofPrimitive .xRdy)).carries .rRdy = true) :
    h.backdrop.Quiet .rcvChkRdy h.drive.link.parameters h.drive.link.outbound
        (h.after (List.replicate (n + 1) (.ofPrimitive .xRdy))) ∧
      h.handles (List.replicate (n + 1) (.ofPrimitive .xRdy)) = [] := by
  let h₁ := h.after (List.replicate n (.ofPrimitive .xRdy))
  let h₂ := h.after (List.replicate (n + 1) (.ofPrimitive .xRdy))
  have hr₁ : h₁.Reachable := hr.after _
  have hlast : h₂ = h₁.after [.ofPrimitive .xRdy] := by
    rw [← Host.after_append, ← List.replicate_succ']
  have hl := linked (hr₁.isReady_of_hears hheard)
  -- A link that drives R_RDY stands in `rcvChkRdy`, and stays there under XRDY.
  have hstate : h₁.drive.link.state = .rcvChkRdy := by
    have hword := hheard
    rw [hl.hears hr₁.settled.received] at hword
    rcases Link.driven_of_carries hword with hdriven | ⟨-, hp, -⟩
    · exact LinkState.rcvChkRdy_of_driven hdriven
    · cases hp
  have hne : h₁.drive.link.state ≠ .rcvEof := by
    rw [hstate]
    decide
  obtain ⟨-, hl', -⟩ :=
    hl.after_word hr₁.settled.received (Link.accepted?_of_ne_rcvEof hne (.ofPrimitive .xRdy))
  rw [Link.step_rcvChkRdy_other hstate (by decide), ← hlast] at hl'
  have hstate₂ : h₂.drive.link.state = .rcvChkRdy := by rw [hl'.link, hstate]
  obtain ⟨hbackdrop, hqueue, hparameters, hnone⟩ :=
    hr.after_requests (n := n + 1) (by rw [hstate₂]; trivial)
  have hquiet := (hr.after _).quiet_of_open (h := h₂) hl'.isReady (.inr (.inr hstate₂))
  rw [hstate₂, hbackdrop, hqueue, hparameters] at hquiet
  exact ⟨hquiet, hnone⟩

end Host

/-! ### The frame and its verdict -/

namespace Backdrop.Linked

variable {b : Backdrop} {l : Link} {h : Host}

/-- A frame that the drive is ready for is taken in, whatever it is. -/
theorem after_laneForm (hl : b.Linked l h) (hs : l.state = .rcvChkRdy) (hreceived : l.received = [])
    (frame : Frame) :
    b.Linked (l.closing (WireCoder.wireForm frame)) (h.after (laneForm frame)) ∧
      h.handles (laneForm frame) = [] := by
  have hclosing := Link.after_laneForm hs frame
  have hnone : (l.after (laneForm frame)).received = [] := by
    rw [hclosing]
    exact hreceived
  have hwords := hl.after_words hreceived hnone
  rw [hclosing] at hwords
  exact hwords

/-- A drive that has judged a frame repeats its verdict until SYNC, which brings it to rest. -/
theorem after_judged {p : Primitive} (hl : b.Linked l h) (hreceived : l.received = [])
    (hjudged : l.state = .goodEnd ∧ p = .ok ∨ l.state = .badEnd ∧ p = .err) (n : Nat) :
    (h.after (List.replicate n (.ofPrimitive .wtrm))).hears (.ofPrimitive .wtrm) = .ofPrimitive p ∧
      b.Linked { l with state := .idle }
        (h.after (List.replicate n (.ofPrimitive .wtrm) ++ [.ofPrimitive .sync])) ∧
      h.handles (List.replicate n (.ofPrimitive .wtrm) ++ [.ofPrimitive .sync]) = [] := by
  obtain ⟨hdriven, hwtrm, hsync⟩ : l.state.driven = some p ∧
      (l.step (.ofPrimitive .wtrm)).2 = l ∧
      (l.step (.ofPrimitive .sync)).2 = { l with state := .idle } := by
    rcases hjudged with ⟨hs, rfl⟩ | ⟨hs, rfl⟩
    · refine ⟨by rw [hs]; rfl, ?_, by rw [Link.step_goodEnd hs]; rfl⟩
      rw [Link.step_goodEnd hs, if_neg (by decide), ← hs]
    · refine ⟨by rw [hs]; rfl, ?_, by rw [Link.step_badEnd hs]; rfl⟩
      rw [Link.step_badEnd hs, if_neg (by decide), ← hs]
  have hwait : l.after (List.replicate n (.ofPrimitive .wtrm)) = l := Link.after_replicate hwtrm n
  have hall : l.after (List.replicate n (.ofPrimitive .wtrm) ++ [.ofPrimitive .sync]) =
      { l with state := .idle } := by
    rw [Link.after_append, hwait, Link.after_cons, hsync, Link.after_nil]
  have hbefore := (hl.after_words hreceived (by rw [hwait]; exact hreceived)).1
  have hend := hl.after_words hreceived (by rw [hall]; exact hreceived)
  rw [hwait] at hbefore
  rw [hall] at hend
  exact ⟨(hbefore.hears hreceived _).trans (Link.step_driven hdriven _), hend⟩

/-- The verdict that is heard on a frame, and what the drive has done about the frame by then. -/
theorem after_closing {wire : List UInt32} (hl : b.Linked (l.closing wire) h)
    (hreceived : l.received = []) {polls : Nat} {verdict : Bool}
    (hheard : ((h.after (List.replicate polls (.ofPrimitive .wtrm))).hears
      (.ofPrimitive .wtrm)).asPrimitive? = some (if verdict then .ok else .err)) :
    let ended := h.after (List.replicate (polls + 1) (.ofPrimitive .wtrm) ++ [.ofPrimitive .sync])
    let handled := h.handles
      (List.replicate (polls + 1) (.ofPrimitive .wtrm) ++ [.ofPrimitive .sync])
    (verdict = true ∧ ∃ frame, WireCoder.Encodes l.parameters.maxFrameWords wire frame ∧
        handled = [frame] ∧ ended.backdrop = b.handled frame) ∨
      (verdict = false ∧ (¬∃ frame, WireCoder.Encodes l.parameters.maxFrameWords wire frame) ∧
        handled = [] ∧ ended.backdrop = b) := by
  intro ended handled
  cases polls with
  | zero =>
      -- The step that ends the frame says R_IP still.
      rw [List.replicate_zero, Host.after_nil, hl.hears hreceived,
        Link.step_driven (p := .rIp) rfl] at hheard
      cases verdict <;> cases hheard
  | succ polls =>
      let h₁ := h.after [.ofPrimitive .wtrm]
      have hsays : ((h₁.after (List.replicate polls (.ofPrimitive .wtrm))).hears
          (.ofPrimitive .wtrm)).asPrimitive? = some (if verdict then .ok else .err) := hheard
      have hended : ended = h₁.after
          (List.replicate (polls + 1) (.ofPrimitive .wtrm) ++ [.ofPrimitive .sync]) := rfl
      have hhandled : handled = h.handles [.ofPrimitive .wtrm] ++ h₁.handles
          (List.replicate (polls + 1) (.ofPrimitive .wtrm) ++ [.ofPrimitive .sync]) :=
        h.handles_append [.ofPrimitive .wtrm] _
      rw [hended, hhandled]
      by_cases henc : ∃ frame, WireCoder.Encodes l.parameters.maxFrameWords wire frame
      · obtain ⟨frame, henc⟩ := henc
        obtain ⟨-, hl', hone⟩ := hl.after_accepting hreceived
          (Link.accepted?_closing_good henc (.ofPrimitive .wtrm))
        rw [Link.step_closing_good henc] at hl'
        obtain ⟨hok, -⟩ := hl'.after_judged rfl (.inl ⟨rfl, rfl⟩) polls
        obtain ⟨-, hrest, hnone⟩ := hl'.after_judged rfl (.inl ⟨rfl, rfl⟩) (polls + 1)
        rw [hok] at hsays
        rw [hone, hnone, hrest.backdrop]
        cases verdict with
        | true => exact .inl ⟨rfl, frame, henc, rfl, rfl⟩
        | false => cases hsays
      · obtain ⟨-, hl', hnone⟩ := hl.after_word hreceived
          (Link.accepted?_closing_bad henc (.ofPrimitive .wtrm))
        rw [Link.step_closing_bad henc] at hl'
        obtain ⟨herr, -⟩ := hl'.after_judged hreceived (.inr ⟨rfl, rfl⟩) polls
        obtain ⟨-, hrest, hnone'⟩ := hl'.after_judged hreceived (.inr ⟨rfl, rfl⟩) (polls + 1)
        rw [herr] at hsays
        rw [hnone, hnone', hrest.backdrop]
        cases verdict with
        | true => cases hsays
        | false => exact .inr ⟨rfl, henc, rfl, rfl⟩

end Backdrop.Linked

/-- Wire words of a frame encode that frame or none. -/
theorem WireCoder.encodes_wireForm_iff {maxWords : Nat} {frame frame' : Frame} :
    Encodes maxWords (wireForm frame) frame' ↔
      frame' = frame ∧ 1 ≤ frame.length ∧ frame.length ≤ maxWords := by
  constructor
  · rintro ⟨hpos, hmax, hwire⟩
    obtain rfl := wireForm_inj hwire
    exact ⟨rfl, hpos, hmax⟩
  · rintro ⟨rfl, hpos, hmax⟩
    exact ⟨hpos, hmax, rfl⟩

namespace Host

variable {h : Host}

/-- **The host and the drive agree on every frame.** Whatever state a reachable host is in, when
it has sent a frame and got a verdict, the verdict is that the frame was good exactly if its
length is allowed. If it was good, the drive has handled this frame and no other one meanwhile,
and if not, none. If the drive is up and no frame is under way on its link, the host does get
a verdict; then the link is at rest, the frames that were pending are pending still, and the
answers to the frame are pending after them. -/
theorem sendFrame_verdict (hreach : h.Reachable) (frame : Frame) :
    let fits := 1 ≤ frame.length ∧ frame.length ≤ h.drive.link.parameters.maxFrameWords
    (∀ verdict h', (HostM.sendFrame frame).run h = .ok verdict h' →
      (verdict = true ↔ fits) ∧
      (∃ requests polls, h' = h.after (HostM.frameDialogue frame requests polls) ∧
        h.handles (HostM.frameDialogue frame requests polls) = if verdict then [frame] else []) ∧
      (verdict = true → h'.drive.lastReceived = frame ∧
        (h'.drive.commands, h'.drive.disk) =
          (h.drive.commands.handle h.drive.disk frame).2) ∧
      (verdict = false → h'.drive.lastReceived = h.drive.lastReceived ∧
        h'.drive.commands = h.drive.commands ∧ h'.drive.disk = h.drive.disk)) ∧
    (h.drive.isReady = true → h.drive.link.state ∈ [.idle, .sendChkRdy, .rcvChkRdy] →
      2 ≤ h.stepLimit →
      ∃ verdict h', (HostM.sendFrame frame).run h = .ok verdict h' ∧
        h'.drive.link.state = .idle ∧
        h'.drive.link.outbound =
          h.drive.link.outbound ++ if verdict then h.drive.answers frame else []) := by
  intro fits
  refine ⟨fun verdict h' hrun => ?_, fun hready hstate hsteps => ?_⟩
  · obtain ⟨requests, polls, hh', hrRdy, hheard⟩ := HostM.sendFrame_ok hrun
    obtain ⟨⟨l, hquiet, hl⟩, hnone⟩ := hreach.quiet_of_rRdy hrRdy
    obtain ⟨hl', hnone'⟩ := hl.after_laneForm hquiet.state hquiet.received frame
    rw [Host.after_append, Host.after_append] at hheard
    have hjudged := hl'.after_closing hquiet.received hheard
    rw [hquiet.parameters] at hjudged
    have hended : h' = ((h.after (List.replicate (requests + 1) (.ofPrimitive .xRdy))).after
        (laneForm frame)).after
          (List.replicate (polls + 1) (.ofPrimitive .wtrm) ++ [.ofPrimitive .sync]) := by
      simp only [hh', HostM.frameDialogue, Host.after_append]
    have hhandles : h.handles (HostM.frameDialogue frame (requests + 1) (polls + 1)) =
        ((h.after (List.replicate (requests + 1) (.ofPrimitive .xRdy))).after
          (laneForm frame)).handles
            (List.replicate (polls + 1) (.ofPrimitive .wtrm) ++ [.ofPrimitive .sync]) := by
      rw [HostM.frameDialogue, List.append_assoc, handles_append, handles_append, hnone, hnone',
        Host.after_append, List.append_nil, List.nil_append]
    rw [← hended, ← hhandles] at hjudged
    rcases hjudged with ⟨rfl, frame', henc, hone, hbackdrop⟩ | ⟨rfl, henc, hnothing, hbackdrop⟩
    · obtain ⟨rfl, hfits⟩ := WireCoder.encodes_wireForm_iff.mp henc
      refine ⟨⟨fun _ => hfits, fun _ => rfl⟩, ⟨_, _, hh', hone⟩, fun _ => ⟨?_, ?_⟩,
        fun hno => absurd hno.symm Bool.false_ne_true⟩
      · exact congrArg Backdrop.lastReceived hbackdrop
      · exact congrArg (fun b => (b.commands, b.disk)) hbackdrop
    · have hunfit : ¬fits := fun hfits => henc ⟨frame, hfits.1, hfits.2, rfl⟩
      refine ⟨⟨fun hyes => absurd hyes Bool.false_ne_true, fun hfits => absurd hfits hunfit⟩,
        ⟨_, _, hh', hnothing⟩, fun hyes => absurd hyes Bool.false_ne_true, fun _ => ?_⟩
      exact ⟨congrArg Backdrop.lastReceived hbackdrop, congrArg Backdrop.commands hbackdrop,
        congrArg Backdrop.disk hbackdrop⟩
  · have hopen : h.drive.link.state = .idle ∨ h.drive.link.state = .sendChkRdy ∨
        h.drive.link.state = .rcvChkRdy := by simpa using hstate
    have hquiet := hreach.quiet_of_open hready hopen
    by_cases hfits : fits
    · obtain ⟨h', hrun, l, hl, hlinked⟩ :=
        HostM.sendFrame_accepted (b := h.backdrop) hopen hsteps hfits.1 hfits.2 h hquiet
      refine ⟨true, h', hrun, ?_, ?_⟩
      · rw [hlinked.link, hl.state]
      · rw [hlinked.link, hl.outbound]
        rfl
    · obtain ⟨h', hrun, l, hl, hlinked⟩ :=
        HostM.sendFrame_refused (b := h.backdrop) hopen hsteps hfits h hquiet
      refine ⟨false, h', hrun, ?_, ?_⟩
      · rw [hlinked.link, hl.state]
      · rw [hlinked.link, hl.outbound]
        exact (List.append_nil _).symm

/-- A command that the drive does not serve, sent when the drive has been ready for a frame for a
while. -/
theorem sendFrame_verdict_identify :
    let frame : Frame := [0x00EC0027]
    let new : Host := .new (.new { LinkParameters.standard with alignCount := 1 } (.zeroed 0))
    let h := (HostM.awaitIdle.leaves (HostM.bringUp.leaves new)).after
      (List.replicate 3 (.ofPrimitive .xRdy))
    h.Reachable ∧ h.drive.link.state = .rcvChkRdy ∧
      ∃ h', (HostM.sendFrame frame).run h = .ok true h' ∧ h'.drive.lastReceived = frame ∧
        h'.drive.link.pending = 1 := by
  intro frame new h
  have hreach : h.Reachable :=
    .after (.leaves HostM.awaitIdle_steps (.leaves HostM.bringUp_steps (.new _ _))) _
  have hstate : h.drive.link.state = .rcvChkRdy := by decide +kernel
  obtain ⟨hall, hgets⟩ := sendFrame_verdict hreach frame
  obtain ⟨verdict, h', hrun, -, hqueue⟩ :=
    hgets (by decide +kernel) (by rw [hstate]; decide) (by decide +kernel)
  obtain ⟨hfits, -, hgood, -⟩ := hall verdict h' hrun
  obtain rfl : verdict = true := hfits.mpr (by decide +kernel)
  refine ⟨hreach, hstate, h', hrun, (hgood rfl).1, ?_⟩
  rw [Link.pending, hqueue]
  decide +kernel

end Host

end SerialAta
