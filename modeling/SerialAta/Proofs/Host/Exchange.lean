import SerialAta.Host.Transfers
import SerialAta.Proofs.Fis.RoundTrip
import SerialAta.Proofs.Host.Programs
import SerialAta.Proofs.Link.Reception
/-!
# SerialAta.Proofs.Host.Exchange

**A frame from one end to the other.** A frame of the host arrives if its length is allowed, and
is handled (`sendFrame_accepted`); otherwise the host is told so (`sendFrame_refused`). The
host receives the frame at the head of the drive's queue, intact (`receiveFrame_does`). Each
exchange starts and ends with the link at rest, with `Backdrop.Quiet`, so exchanges follow
one another in any order.
-/

namespace SerialAta

/-- No frame is in flight, and the frames `queue` are to be sent. -/
structure Link.Quiet (l : Link) (state : LinkState) (parameters : LinkParameters)
    (queue : List Frame) : Prop where
  state : l.state = state
  parameters : l.parameters = parameters
  outbound : l.outbound = queue
  unsent : l.unsent = none
  received : l.received = []

/-- The drive is up, no frame is in flight, and the rest is the backdrop. -/
def Backdrop.Quiet (b : Backdrop) (state : LinkState) (parameters : LinkParameters)
    (queue : List Frame) (h : Host) : Prop :=
  ∃ l : Link, l.Quiet state parameters queue ∧ b.Linked l h

namespace HostM

variable {α : Type} {b : Backdrop} {l l' : Link} {parameters : LinkParameters}
  {queue : List Frame} {state : LinkState} {Q : Host → Prop} {a : α}

/-- A word for a link that is not at the end of a frame. -/
theorem send_step (hreceived : l.received = []) (hstate : l.state ≠ .rcvEof)
    {word out : PhyWord} (hstep : l.step word = (out, l')) :
    Does (send word) (b.Linked l) out (b.Linked l') := by
  have hsend := send_does (b := b) hreceived (Link.accepted?_of_ne_rcvEof hstate word)
  rw [hstep] at hsend
  exact hsend

/-- A program may be shown for every link that no frame is in flight on. -/
theorem Does.of_quiet {x : HostM α}
    (hx : ∀ l : Link, l.Quiet state parameters queue → Does x (b.Linked l) a Q) :
    Does x (b.Quiet state parameters queue) a Q := by
  rintro h ⟨l, hquiet, hlinked⟩
  exact hx l hquiet h hlinked

theorem Does.to_quiet {x : HostM α} {P : Host → Prop} (hx : Does x P a (b.Linked l))
    (hquiet : l.Quiet state parameters queue) : Does x P a (b.Quiet state parameters queue) := by
  intro h hp
  obtain ⟨h', hrun, hlinked⟩ := hx h hp
  exact ⟨h', hrun, l, hquiet, hlinked⟩

/-! ### Sending a frame -/

/-- The drive gets ready for a frame, even if it was about to announce one itself. -/
theorem announce_does (hquiet : l.Quiet state parameters queue)
    (hopen : state = .idle ∨ state = .sendChkRdy ∨ state = .rcvChkRdy) (hsteps : 2 ≤ b.limit) :
    Does (exchange .frameReady .xRdy .rRdy) (b.Linked l) ()
      (b.Quiet .rcvChkRdy parameters queue) := by
  obtain ⟨rfl, rfl, rfl, hunsent, hreceived⟩ := hquiet
  have hready : ∀ m : Link, m.Quiet .rcvChkRdy l.parameters l.outbound →
      Does (sendPrimitive .xRdy) (b.Linked m) (.ofPrimitive .rRdy)
        (b.Quiet .rcvChkRdy l.parameters l.outbound) := by
    intro m hm
    refine (send_step hm.received (by rw [hm.state]; decide) ?_).to_quiet hm
    exact Link.step_rcvChkRdy_other hm.state (by decide)
  have hlimit : ∀ h, b.Linked l h → h.stepLimit = b.limit := fun _ h => h.limit
  -- In `idle` and `sendChkRdy` the first XRDY turns the drive round, and the second finds it ready.
  rcases hopen with hs | hs | hs
  · have hfirst := send_step (b := b) hreceived (by rw [hs]; decide)
      (Link.step_idle hs (.ofPrimitive .xRdy))
    exact .await_second hlimit hsteps hfirst rfl (hready _ ⟨rfl, rfl, rfl, hunsent, hreceived⟩) rfl
  · have hfirst := send_step (b := b) hreceived (by rw [hs]; decide)
      (Link.step_sendChkRdy hs (.ofPrimitive .xRdy))
    exact .await_second hlimit hsteps hfirst rfl (hready _ ⟨rfl, rfl, rfl, hunsent, hreceived⟩) rfl
  · exact .await_first hlimit (by omega) (hready l ⟨hs, rfl, rfl, hunsent, hreceived⟩) rfl

/-- Data words within a frame are taken one by one. -/
theorem sendWords_does (hreceived : l.received = []) (before wire : List UInt32) :
    Does (sendWords wire) (b.Linked (l.receiving before)) ()
      (b.Linked (l.receiving (before ++ wire))) := by
  induction wire generalizing before with
  | nil =>
      rw [List.append_nil]
      exact .pure () _
  | cons w wire ih =>
      have hstep : (l.receiving before).step (.ofData w) =
          (((l.receiving before).step (.ofData w)).1, l.receiving (before ++ [w])) :=
        Prod.ext rfl (Link.step_receiving_data l before rfl)
      have hrest := ih (before ++ [w])
      rw [List.append_assoc] at hrest
      have hword := send_step (b := b) (l := l.receiving before) hreceived
        (by simp [Link.receiving]) hstep
      exact hword.bind hrest

section Verdict

variable {operation : Operation} {stop : PhyWord → Option α} {wire : List UInt32}

/-- A frame that is well formed is handled, and found good. -/
theorem verdict_good (hquiet : l.Quiet state parameters queue) {frame : Frame}
    (henc : WireCoder.Encodes parameters.maxFrameWords wire frame) (hsteps : 2 ≤ b.limit)
    (hgo : stop (.ofPrimitive .rIp) = none) (hstop : stop (.ofPrimitive .ok) = some a) :
    Does (await operation (sendPrimitive .wtrm) stop) (b.Linked (l.closing wire)) a
      ((b.handled frame).Quiet .goodEnd parameters (queue ++ b.answers frame)) := by
  obtain ⟨rfl, rfl, rfl, hunsent, hreceived⟩ := hquiet
  have hfirst := send_does_accepting (b := b) (l := l.closing wire) hreceived
    (Link.accepted?_closing_good henc (.ofPrimitive .wtrm))
  rw [Link.step_closing_good henc] at hfirst
  let good : Link := { l.closing wire with
    state := .goodEnd
    received := []
    reception := { (l.closing wire).reception with words := #[] }
    outbound := l.outbound ++ b.answers frame }
  have hsecond := send_step (b := b.handled frame) (l := good) rfl (by simp [good])
    (Link.step_goodEnd rfl (.ofPrimitive .wtrm))
  refine .await_second (fun _ h => h.limit) hsteps hfirst hgo (hsecond.to_quiet ?_) hstop
  exact ⟨rfl, rfl, rfl, hunsent, rfl⟩

/-- Any other frame is found damaged. -/
theorem verdict_bad (hquiet : l.Quiet state parameters queue)
    (henc : ¬∃ frame, WireCoder.Encodes parameters.maxFrameWords wire frame)
    (hsteps : 2 ≤ b.limit) (hgo : stop (.ofPrimitive .rIp) = none)
    (hstop : stop (.ofPrimitive .err) = some a) :
    Does (await operation (sendPrimitive .wtrm) stop) (b.Linked (l.closing wire)) a
      (b.Quiet .badEnd parameters queue) := by
  obtain ⟨rfl, rfl, rfl, hunsent, hreceived⟩ := hquiet
  have hfirst := send_does (b := b) (l := l.closing wire) hreceived
    (Link.accepted?_closing_bad henc (.ofPrimitive .wtrm))
  rw [Link.step_closing_bad henc] at hfirst
  let bad : Link := { l.closing wire with state := .badEnd }
  have hsecond := send_step (b := b) (l := bad) hreceived (by simp [bad])
    (Link.step_badEnd rfl (.ofPrimitive .wtrm))
  refine .await_second (fun _ h => h.limit) hsteps hfirst hgo (hsecond.to_quiet ?_) hstop
  exact ⟨rfl, rfl, rfl, hunsent, hreceived⟩

end Verdict

/-- After the verdict, SYNC brings the link to rest. -/
theorem sync_does (b : Backdrop) (parameters : LinkParameters) (queue : List Frame)
    (hstate : state = .goodEnd ∨ state = .badEnd) :
    ∃ out, Does (sendPrimitive .sync) (b.Quiet state parameters queue) out
      (b.Quiet .idle parameters queue) := by
  rcases hstate with rfl | rfl
  · refine ⟨.ofPrimitive .ok, .of_quiet fun l hl => ?_⟩
    obtain ⟨hs, hp, ho, hunsent, hreceived⟩ := hl
    refine (send_step hreceived (by rw [hs]; decide) (Link.step_goodEnd hs _)).to_quiet ?_
    exact ⟨rfl, hp, ho, hunsent, hreceived⟩
  · refine ⟨.ofPrimitive .err, .of_quiet fun l hl => ?_⟩
    obtain ⟨hs, hp, ho, hunsent, hreceived⟩ := hl
    refine (send_step hreceived (by rw [hs]; decide) (Link.step_badEnd hs _)).to_quiet ?_
    exact ⟨rfl, hp, ho, hunsent, hreceived⟩

/-- A frame is sent up to its end, the drive gives its verdict, and the link comes to rest. -/
theorem sendFrame_of_verdict {frame : Frame} {verdict : Bool} {b' : Backdrop}
    {queue' : List Frame} {ended : LinkState} (hended : ended = .goodEnd ∨ ended = .badEnd)
    (hopen : state = .idle ∨ state = .sendChkRdy ∨ state = .rcvChkRdy) (hsteps : 2 ≤ b.limit)
    (hverdict : ∀ m : Link, m.Quiet .rcvChkRdy parameters queue →
      ∀ stop : PhyWord → Option Bool, stop (.ofPrimitive .rIp) = none →
        stop (.ofPrimitive .ok) = some true → stop (.ofPrimitive .err) = some false →
        Does (await .frameStatus (sendPrimitive .wtrm) stop)
          (b.Linked (m.closing (WireCoder.wireForm frame))) verdict
          (b'.Quiet ended parameters queue')) :
    Does (sendFrame frame) (b.Quiet state parameters queue) verdict
      (b'.Quiet .idle parameters queue') := by
  obtain ⟨out, hsync⟩ := sync_does b' parameters queue' hended
  refine (Does.of_quiet fun l hl => announce_does hl hopen hsteps).bind (.of_quiet fun m hm => ?_)
  have hsof := send_step (b := b) hm.received (by rw [hm.state]; decide) (Link.step_sof hm.state)
  have hwords := sendWords_does (b := b) hm.received [] (WireCoder.wireForm frame)
  have heof := send_step (b := b) (l := m.receiving (WireCoder.wireForm frame)) hm.received
    (by simp [Link.receiving]) (Link.step_receiving_eof m _)
  refine hsof.bind (hwords.bind (heof.bind ((hverdict m hm _ rfl rfl rfl).bind ?_)))
  exact hsync.bind (.pure verdict _)

/-- **The drive takes a frame of the host** if its length is allowed. It is handled once, and
the answers to it are pending after the frames that were pending before. -/
theorem sendFrame_accepted
    (hopen : state = .idle ∨ state = .sendChkRdy ∨ state = .rcvChkRdy) (hsteps : 2 ≤ b.limit)
    {frame : Frame} (hpos : 1 ≤ frame.length) (hmax : frame.length ≤ parameters.maxFrameWords) :
    Does (sendFrame frame) (b.Quiet state parameters queue) true
      ((b.handled frame).Quiet .idle parameters (queue ++ b.answers frame)) := by
  refine sendFrame_of_verdict (.inl rfl) hopen hsteps fun m hm stop hgo hgood _ => ?_
  exact verdict_good hm ⟨hpos, hmax, rfl⟩ hsteps hgo hgood

/-- A frame that is empty or too long is refused, and nothing else happens. -/
theorem sendFrame_refused
    (hopen : state = .idle ∨ state = .sendChkRdy ∨ state = .rcvChkRdy) (hsteps : 2 ≤ b.limit)
    {frame : Frame} (hbad : ¬(1 ≤ frame.length ∧ frame.length ≤ parameters.maxFrameWords)) :
    Does (sendFrame frame) (b.Quiet state parameters queue) false
      (b.Quiet .idle parameters queue) := by
  refine sendFrame_of_verdict (.inr rfl) hopen hsteps fun m hm stop hgo _ herr => ?_
  refine verdict_bad hm ?_ hsteps hgo herr
  -- A frame is known by its wire words, so no other one has come in its place.
  rintro ⟨frame', hpos, hmax, hwire⟩
  obtain rfl := WireCoder.wireForm_inj hwire
  exact hbad ⟨hpos, hmax⟩

/-! ### Receiving a frame -/

variable {frame : Frame}

/-- The drive announces the frame at the head of its queue. -/
theorem awaitFrame_does (hopen : state = .idle ∨ state = .sendChkRdy) (hsteps : 2 ≤ b.limit) :
    Does (exchange .frameAnnounced .sync .xRdy) (b.Quiet state parameters (frame :: queue)) ()
      (b.Quiet .sendChkRdy parameters (frame :: queue)) := by
  refine .of_quiet fun l ⟨hs, hp, ho, hunsent, hreceived⟩ => ?_
  have hlimit : ∀ h, b.Linked l h → h.stepLimit = b.limit := fun _ h => h.limit
  have hoffer : ∀ m : Link, m.Quiet .sendChkRdy parameters (frame :: queue) →
      Does (sendPrimitive .sync) (b.Linked m) (.ofPrimitive .xRdy)
        (b.Quiet .sendChkRdy parameters (frame :: queue)) := by
    intro m hm
    refine (send_step hm.received (by rw [hm.state]; decide)
      (Link.step_sendChkRdy hm.state (.ofPrimitive .sync))).to_quiet ?_
    exact ⟨rfl, hm.parameters, hm.outbound, hm.unsent, hm.received⟩
  rcases hopen with rfl | rfl
  · have hfirst := send_step (b := b) hreceived (by rw [hs]; decide)
      (Link.step_idle hs (.ofPrimitive .sync))
    rw [ho] at hfirst
    exact .await_second hlimit hsteps hfirst rfl (hoffer _ ⟨rfl, hp, rfl, hunsent, hreceived⟩) rfl
  · exact .await_first hlimit (by omega) (hoffer l ⟨hs, hp, ho, hunsent, hreceived⟩) rfl

section Collect

variable {limit left : Nat} {wire : Array UInt32} {P R : Host → Prop}

theorem collect_data {word : UInt32} {words : List UInt32}
    (hword : Does (sendPrimitive .rIp) P (.ofData word) Q)
    (hrest : Does (collect limit (wire.push word) left) Q words R) :
    Does (collect limit wire (left + 1)) P words R :=
  hword.bind hrest

theorem collect_end (hword : Does (sendPrimitive .rIp) P (.ofPrimitive .eof) Q) :
    Does (collect limit wire (left + 1)) P wire.toList Q :=
  hword.bind (.pure wire.toList Q)

/-- The words of a frame come until its end, and the frame leaves the queue. -/
theorem collect_does (limit : Nat) (wire : Array UInt32) {todo : List UInt32}
    (hs : l.state = .sendData)
    (ho : l.outbound = frame :: queue) (hu : l.unsent = some todo)
    (hreceived : l.received = []) (hleft : todo.length + 2 ≤ left) :
    Does (collect limit wire left) (b.Linked l)
      (wire.toList ++ (l.coder.putWords todo).1 ++ [(l.coder.putWords todo).2.putCrc.1])
      (b.Quiet .wait l.parameters queue) := by
  have hne : l.state ≠ .rcvEof := by rw [hs]; decide
  induction todo generalizing l wire left with
  | nil =>
      -- All words are out; what remains is the checksum and the end of the frame.
      obtain ⟨n, rfl⟩ : ∃ n, left = n + 2 := ⟨left - 2, by omega⟩
      have hcrc := send_step (b := b) hreceived hne
        (Link.step_sendData_crc hs ho hu (.ofPrimitive .rIp))
      let ended : Link := { l with coder := l.coder.putCrc.2, state := .sendEof }
      have heof := send_step (b := b) (l := ended) hreceived (by simp [ended])
        (Link.step_sendEof rfl (.ofPrimitive .rIp))
      simp only [WireCoder.putWords_nil, List.append_nil]
      rw [← Array.toList_push]
      refine collect_data hcrc (collect_end (heof.to_quiet ?_))
      exact ⟨rfl, rfl, congrArg List.tail ho, rfl, hreceived⟩
  | cons word todo ih =>
      obtain ⟨n, rfl⟩ : ∃ n, left = n + 1 := ⟨left - 1, by omega⟩
      have hword := send_step (b := b) hreceived hne
        (Link.step_sendData_word hs ho hu (.ofPrimitive .rIp))
      have hpush : ∀ (first : UInt32) (others : List UInt32),
          wire.toList ++ first :: others = (wire.push first).toList ++ others := by simp
      rw [List.length_cons] at hleft
      rw [WireCoder.putWords_cons, hpush]
      exact collect_data hword (ih _ hs ho rfl hreceived (by omega) hne)

end Collect

/-- The start of the frame comes once the host is ready. -/
theorem start_does (hquiet : l.Quiet .sendChkRdy parameters (frame :: queue))
    (hsteps : 2 ≤ b.limit) :
    Does (exchange .frameStart .rRdy .sof) (b.Linked l) ()
      (b.Linked { l with state := .sendData, coder := .initial, unsent := some frame }) := by
  obtain ⟨hs, hp, ho, hunsent, hreceived⟩ := hquiet
  have hfirst := send_step (b := b) hreceived (by rw [hs]; decide)
    (Link.step_sendChkRdy hs (.ofPrimitive .rRdy))
  let agreed : Link := { l with state := .sendData }
  have hsecond := send_step (b := b) (l := agreed) hreceived (by simp [agreed])
    (Link.step_sendData_start (l := agreed) rfl ho hunsent (.ofPrimitive .rRdy))
  exact .await_second (fun _ h => h.limit) hsteps hfirst rfl hsecond rfl

/-- The verdict of the host brings the link to rest, whatever it is. -/
theorem giveVerdict_does (b : Backdrop) (parameters : LinkParameters) (queue : List Frame)
    (good : Bool) :
    Does (sendPrimitive (if good then .ok else .err)) (b.Quiet .wait parameters queue)
      (.ofPrimitive .wtrm) (b.Quiet .idle parameters queue) := by
  refine .of_quiet fun l ⟨hs, hp, ho, hunsent, hreceived⟩ => ?_
  cases good with
  | true =>
      refine (send_step hreceived (by rw [hs]; decide) (Link.step_wait hs _)).to_quiet ?_
      exact ⟨rfl, hp, ho, hunsent, hreceived⟩
  | false =>
      refine (send_step hreceived (by rw [hs]; decide) (Link.step_wait hs _)).to_quiet ?_
      exact ⟨rfl, hp, ho, hunsent, hreceived⟩

/-- **The host receives the frame at the head of the queue**, as it is, and it leaves the
queue. -/
theorem receiveFrame_does (hopen : state = .idle ∨ state = .sendChkRdy) (hsteps : 2 ≤ b.limit)
    (hlength : frame.length + 2 ≤ b.limit) :
    Does receiveFrame (b.Quiet state parameters (frame :: queue))
      { words := frame, wire := WireCoder.wireForm frame, intact := !frame.isEmpty }
      (b.Quiet .idle parameters queue) := by
  refine (awaitFrame_does hopen hsteps).bind (.of_quiet fun l hl => ?_)
  obtain rfl := hl.parameters
  refine (start_does hl hsteps).bind (.read fun h hh => ?_)
  rw [hh.limit]
  have hwire := collect_does (b := b) b.limit #[]
    (l := { l with state := .sendData, coder := .initial, unsent := some frame }) rfl hl.outbound
    rfl hl.received hlength
  rw [List.nil_append, ← WireCoder.wireForm_eq] at hwire
  have hverdict := giveVerdict_does b l.parameters queue
    (ReceivedFrame.ofWire (WireCoder.wireForm frame)).intact
  rw [← ReceivedFrame.ofWire_wireForm]
  exact Does.bind hwire (hverdict.bind (.pure _ _))

/-! ### FISes -/

/-- A FIS of the host is handled if the drive has room for it. -/
theorem sendFis_does (hopen : state = .idle ∨ state = .sendChkRdy ∨ state = .rcvChkRdy)
    (hsteps : 2 ≤ b.limit) (fis : Fis) {replies : List Fis} {commands : CommandLayer} {disk : Disk}
    (hmax : fis.toWords.length ≤ parameters.maxFrameWords)
    (hhandle : b.commands.handle b.disk fis.toWords = (replies, commands, disk)) :
    Does (sendFis fis) (b.Quiet state parameters queue) ()
      ((b.update commands disk fis.toWords).Quiet .idle parameters
        (queue ++ replies.map Fis.toWords)) := by
  have hsend := @sendFrame_accepted b parameters queue state hopen hsteps _
    fis.length_toWords_pos hmax
  obtain ⟨hhandled, hanswers⟩ := Backdrop.handled_of_handle hhandle
  rw [hhandled, hanswers] at hsend
  exact hsend.bind (.pure () _)

/-- The host receives a FIS as it reads the words of it. -/
theorem receiveFis_does (hopen : state = .idle ∨ state = .sendChkRdy) (hsteps : 2 ≤ b.limit)
    (fis : Fis) {got : Fis} (hlength : fis.toWords.length + 2 ≤ b.limit)
    (hgot : Fis.ofWords fis.toWords = .ok got) :
    Does receiveFis (b.Quiet state parameters (fis.toWords :: queue)) got
      (b.Quiet .idle parameters queue) := by
  refine (receiveFrame_does hopen hsteps hlength).bind ?_
  simp only [fis.isEmpty_toWords, Bool.not_false, if_true, hgot]
  exact .pure got _

end HostM

end SerialAta
