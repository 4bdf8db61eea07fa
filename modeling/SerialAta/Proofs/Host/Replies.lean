import SerialAta.Proofs.Host.Conversation
/-!
# SerialAta.Proofs.Host.Replies

**What the host receives is what the drive has answered** (`receiveFrame_intact`). A host may
begin to listen at any time, while the drive is in the middle of a frame, of a reception or of
its handshake. If it ends up with a frame at all, this is an answer of the command layer, whole
and undamaged.

Two things make it so. The frames in the queue of a drive are answers that the command layer has
given since the last reset (`Host.History` keeps the list of these, `History.accounts`). And
the host begins to take words down only at a start of frame, and at a start of frame the queue
has a frame and all of it is still to come (`Link.InFlight`), so the words that come are those of
the frame at the head.
-/

namespace SerialAta

/-! ### The answers of a drive -/

namespace Drive

/-- The answers of the command layer in an edge. -/
def replies (d : Drive) (e : DriveEdge) : List Fis :=
  match d.accepts? e with
  | none => []
  | some frame => (d.commands.handle d.disk frame).1

/-- The answers of the command layer in a run, in order. -/
def replied (d : Drive) : List DriveEdge → List Fis
  | [] => []
  | e :: edges => d.replies e ++ (d.edge e).replied edges

/-- The answers since the last reset, after a transmit edge. -/
def record (d : Drive) (log : List Fis) (tx : HostSignals) : List Fis :=
  if tx.reset then [] else log ++ d.replies (.tx tx)

/-- Every frame that waits to be sent is one of the answers. -/
def Accounts (d : Drive) (log : List Fis) : Prop :=
  ∀ frame ∈ d.link.outbound, ∃ fis ∈ log, frame = fis.toWords

variable {d : Drive} {log : List Fis}

theorem replies_rx (d : Drive) : d.replies .rx = [] := by
  rw [replies, accepts?_rx]

theorem replied_append (d : Drive) (us ws : List DriveEdge) :
    d.replied (us ++ ws) = d.replied us ++ (d.run us).replied ws := by
  induction us generalizing d with
  | nil => rfl
  | cons e us ih =>
      simp only [List.cons_append, replied, ih, List.append_assoc]
      rfl

theorem Accounts.txEdge (h : d.Accounts log) (hs : d.Settled) (tx : HostSignals) :
    (d.txEdge tx).2.Accounts (d.record log tx) := by
  cases hreset : tx.reset with
  | true =>
      rw [txEdge_reset hreset]
      exact fun frame hf => absurd hf List.not_mem_nil
  | false =>
      rw [record, if_neg (by rw [hreset]; decide)]
      cases hready : d.isReady with
      | false =>
          rw [txEdge_waiting hready hreset, replies, accepts?_waiting hready hreset,
            List.append_nil]
          exact h
      | true =>
          obtain ⟨hreceived, cut, hcut⟩ := hs
          have hold : ∀ frame ∈ (d.link.step tx.word).2.outbound,
              ∃ fis ∈ log, frame = fis.toWords :=
            fun frame hf => h frame ((hcut.outbound_suffix tx.word).subset hf)
          rw [txEdge_ready hready hreset, replies, accepts?_ready hready hreceived hreset]
          cases ha : d.link.accepted? tx.word with
          | none =>
              rw [stepLink_none (d := d.listened tx) hreceived ha, List.append_nil]
              exact hold
          | some frame =>
              -- The queue grows by the answers to the frame, and so does the log.
              rw [stepLink_some (d := d.listened tx) hreceived ha]
              intro queued hq
              rcases List.mem_append.mp hq with hq | hq
              · obtain ⟨fis, hfis, heq⟩ := hold queued hq
                exact ⟨fis, List.mem_append_left _ hfis, heq⟩
              · obtain ⟨fis, hfis, heq⟩ := List.mem_map.mp hq
                exact ⟨fis, List.mem_append_right _ hfis, heq.symm⟩

end Drive

namespace Host

/-- A host that has come about, and the answers that its drive has given since the last reset,
in order. -/
inductive History : Host → List Fis → Prop
  | new (parameters : LinkParameters) (disk : Disk) : History (.new (.new parameters disk)) []
  | setLimit {h : Host} {log : List Fis} (limit : Nat) :
      History h log → History { h with stepLimit := limit } log
  | cycle {h : Host} {log : List Fis} (tx : HostSignals) :
      History h log → History (h.cycle tx).2 (h.drive.record log tx)
  | txEdge {d : Drive} {limit steps : Nat} {log : List Fis} (tx : HostSignals) :
      History ⟨d, limit, steps⟩ log → History ⟨(d.txEdge tx).2, limit, steps⟩ (d.record log tx)
  | rxEdge {d : Drive} {limit steps : Nat} {log : List Fis} :
      History ⟨d, limit, steps⟩ log → History ⟨d.rxEdge.2, limit, steps⟩ log
  | reset {d : Drive} {limit steps : Nat} {log : List Fis} :
      History ⟨d, limit, steps⟩ log → History ⟨d.reset, limit, steps⟩ []
  | setDisk {d : Drive} {limit steps : Nat} {log : List Fis} (disk : Disk) :
      History ⟨d, limit, steps⟩ log → History ⟨{ d with disk }, limit, steps⟩ log

/-- The answers of the drive while the host sends words. -/
def replies (h : Host) (words : List PhyWord) : List Fis :=
  h.drive.replied (DriveEdge.ofWords words)

variable {h : Host} {log : List Fis}

theorem replies_append (h : Host) (us ws : List PhyWord) :
    h.replies (us ++ ws) = h.replies us ++ (h.after us).replies ws := by
  rw [replies, DriveEdge.ofWords_append, Drive.replied_append, ← drive_after]
  rfl

theorem History.reachable (hh : h.History log) : h.Reachable := by
  induction hh with
  | new parameters disk => exact .new parameters disk
  | setLimit limit _ ih => exact .setLimit limit ih
  | cycle tx _ ih => exact .cycle tx ih
  | txEdge tx _ ih => exact .txEdge tx ih
  | rxEdge _ ih => exact .rxEdge ih
  | reset _ ih => exact .reset ih
  | setDisk disk _ ih => exact .setDisk disk ih

/-- Every reachable host has a history. -/
theorem Reachable.history (hr : h.Reachable) : ∃ log, h.History log := by
  induction hr with
  | new parameters disk => exact ⟨_, .new parameters disk⟩
  | setLimit limit _ ih => exact ih.imp fun _ => .setLimit limit
  | cycle tx _ ih => exact ⟨_, .cycle tx ih.choose_spec⟩
  | txEdge tx _ ih => exact ⟨_, .txEdge tx ih.choose_spec⟩
  | rxEdge _ ih => exact ih.imp fun _ => .rxEdge
  | reset _ ih => exact ⟨_, .reset ih.choose_spec⟩
  | setDisk disk _ ih => exact ih.imp fun _ => .setDisk disk

theorem History.accounts (hh : h.History log) : h.drive.Accounts log := by
  induction hh with
  | new parameters disk => exact fun frame hf => absurd hf List.not_mem_nil
  | setLimit _ _ ih => exact ih
  | cycle tx hh ih => exact ih.txEdge hh.reachable.settled tx
  | txEdge tx hh ih => exact ih.txEdge hh.reachable.settled tx
  | rxEdge _ ih => exact ih
  | reset _ _ => exact fun frame hf => absurd hf List.not_mem_nil
  | setDisk _ _ ih => exact ih

theorem History.after (hh : h.History log) (words : List PhyWord) :
    (h.after words).History (log ++ h.replies words) := by
  induction words generalizing h log with
  | nil =>
      rw [Host.after_nil, replies]
      exact (List.append_nil log).symm ▸ hh
  | cons word words ih =>
      have hnext := ih (.cycle (.ofWord word) hh)
      have hlog : log ++ h.replies (word :: words) =
          h.drive.record log (.ofWord word) ++ (h.cycle (.ofWord word)).2.replies words := by
        show log ++ (h.drive.replies (.tx (.ofWord word)) ++ (Drive.replies _ .rx ++ _)) = _
        rw [Drive.replies_rx, List.nil_append, Drive.record, ← List.append_assoc]
        rfl
      rw [hlog]
      exact hnext

end Host

namespace HostM

variable {α β : Type} {h h' : Host}

/-! ### Taking a frame down -/

section Collect

variable {limit left : Nat} {wire : Array UInt32} {got : List UInt32}

/-- A word that has come while the host waits for the end of the frame. -/
theorem collect_ok_data {word : UInt32} (hheard : h.hears (.ofPrimitive .rIp) = .ofData word)
    (hrun : (collect limit wire left).run h = .ok got h') :
    ∃ n, left = n + 1 ∧
      (collect limit (wire.push word) n).run (h.after [.ofPrimitive .rIp]) = .ok got h' := by
  cases left with
  | zero => cases hrun
  | succ n =>
      obtain ⟨heard, h₁, hsend, hrest⟩ := ok_of_bind hrun
      obtain ⟨rfl, rfl⟩ := send_ok hsend
      rw [hheard] at hrest
      exact ⟨n, rfl, hrest⟩

theorem collect_ok_eof (hheard : h.hears (.ofPrimitive .rIp) = .ofPrimitive .eof)
    (hrun : (collect limit wire left).run h = .ok got h') :
    got = wire.toList ∧ h' = h.after [.ofPrimitive .rIp] := by
  cases left with
  | zero => cases hrun
  | succ n =>
      obtain ⟨heard, h₁, hsend, hrest⟩ := ok_of_bind hrun
      obtain ⟨rfl, rfl⟩ := send_ok hsend
      rw [hheard] at hrest
      obtain ⟨rfl, rfl⟩ := EStateM.Result.ok.inj hrest
      exact ⟨rfl, rfl⟩

variable {b : Backdrop} {l : Link} {frame : Frame} {queue : List Frame}

/-- What has been taken down when the frame has ended are the words of the frame in flight that
were still to come. The frame has left the queue, and the drive waits for the verdict. -/
theorem collect_ok {todo : List UInt32} (hl : b.Linked l h) (hs : l.state = .sendData)
    (ho : l.outbound = frame :: queue) (hu : l.unsent = some todo) (hreceived : l.received = [])
    (hrun : (collect limit wire left).run h = .ok got h') :
    got = wire.toList ++ (l.coder.putWords todo).1 ++ [(l.coder.putWords todo).2.putCrc.1] ∧
      (∃ n, h' = h.after (List.replicate n (.ofPrimitive .rIp))) ∧
      b.Quiet .wait l.parameters queue h' := by
  have hnone : l.accepted? (.ofPrimitive .rIp) = none :=
    Link.accepted?_of_ne_rcvEof (by rw [hs]; decide) _
  induction todo generalizing l h wire left with
  | nil =>
      -- The checksum comes, and the end of the frame after it.
      obtain ⟨hheard, hl', -⟩ := hl.after_word hreceived hnone
      rw [Link.step_sendData_crc hs ho hu] at hheard hl'
      obtain ⟨n, -, hrun⟩ := collect_ok_data hheard hrun
      obtain ⟨hheard', hended, -⟩ := hl'.after_word hreceived
        (Link.accepted?_of_ne_rcvEof (by simp) (.ofPrimitive .rIp))
      rw [Link.step_sendEof rfl] at hheard' hended
      obtain ⟨rfl, rfl⟩ := collect_ok_eof hheard' hrun
      refine ⟨?_, ⟨2, rfl⟩, _, ?_, hended⟩
      · rw [Array.toList_push, WireCoder.putWords_nil, List.append_nil]
      · exact ⟨rfl, rfl, congrArg List.tail ho, rfl, hreceived⟩
  | cons word todo ih =>
      obtain ⟨hheard, hl', -⟩ := hl.after_word hreceived hnone
      rw [Link.step_sendData_word hs ho hu] at hheard hl'
      obtain ⟨n, -, hrun⟩ := collect_ok_data hheard hrun
      obtain ⟨rfl, ⟨m, rfl⟩, hended⟩ := ih hl' hs ho rfl hreceived hrun
        (Link.accepted?_of_ne_rcvEof (by rw [hs]; decide) _)
      refine ⟨?_, ⟨m + 1, rfl⟩, hended⟩
      rw [WireCoder.putWords_cons]
      simp

end Collect

/-- The words of a host that receives a frame: SYNC until a frame is announced, R_RDY until it
starts, R_IP until it ends, and the verdict. -/
def receptionDialogue (waits requests takes : Nat) (verdict : Primitive) : List PhyWord :=
  List.replicate waits (.ofPrimitive .sync) ++ List.replicate requests (.ofPrimitive .rRdy) ++
    List.replicate takes (.ofPrimitive .rIp) ++ [.ofPrimitive verdict]

/-- A host that has received a frame has heard its start, and taken down what came then. -/
theorem receiveFrame_ok {got : ReceivedFrame} (hrun : receiveFrame.run h = .ok got h') :
    ∃ waits requests limit wire h₁,
      let heard := h.after (List.replicate waits (.ofPrimitive .sync) ++
        List.replicate requests (.ofPrimitive .rRdy))
      (heard.hears (.ofPrimitive .rRdy)).carries .sof = true ∧
        (collect limit #[] limit).run (heard.after [.ofPrimitive .rRdy]) = .ok wire h₁ ∧
        got = .ofWire wire ∧
        h' = h₁.after [.ofPrimitive (if got.intact then .ok else .err)] := by
  obtain ⟨⟨⟩, h₁, hannounced, hrun⟩ := ok_of_bind hrun
  obtain ⟨waits, -, rfl, -⟩ := exchange_ok hannounced
  obtain ⟨⟨⟩, h₂, hstart, hrun⟩ := ok_of_bind hrun
  obtain ⟨requests, -, rfl, hsof⟩ := exchange_ok hstart
  obtain ⟨host, h₃, hget, hrun⟩ := ok_of_bind hrun
  obtain ⟨-, rfl⟩ := EStateM.Result.ok.inj hget
  obtain ⟨wire, h₄, hcollect, hrun⟩ := ok_of_bind hrun
  obtain ⟨_, h₅, hverdict, hrun⟩ := ok_of_bind hrun
  obtain ⟨-, rfl⟩ := send_ok hverdict
  obtain ⟨rfl, rfl⟩ := EStateM.Result.ok.inj hrun
  refine ⟨waits + 1, requests, host.stepLimit, wire, h₄, ?_, ?_, rfl, rfl⟩
  · rw [Host.after_append]
    exact hsof
  · rw [Host.after_append, ← Host.after_append _ _ [.ofPrimitive .rRdy], ← List.replicate_succ']
    exact hcollect

/-! ### Failing to receive -/

section Error

variable {operation : Operation} {e : HostError}

theorem error_of_bind {x : HostM α} {f : α → HostM β} (hrun : (x >>= f).run h = .error e h') :
    x.run h = .error e h' ∨ ∃ a h₁, x.run h = .ok a h₁ ∧ (f a).run h₁ = .error e h' := by
  rw [EStateM.run_bind] at hrun
  cases hx : x.run h with
  | ok a h₁ => rw [hx] at hrun; exact .inr ⟨a, h₁, rfl, hrun⟩
  | error e₁ h₁ =>
      rw [hx] at hrun
      obtain ⟨rfl, rfl⟩ := EStateM.Result.error.inj hrun
      exact .inl rfl

/-- A word is always sent. -/
theorem send_error {word : PhyWord} : (send word).run h ≠ .error e h' := nofun

theorem poll_error {word : PhyWord} {stop : PhyWord → Option β} {limit left : Nat}
    (hrun : (poll operation (send word) stop limit left).run h = .error e h') :
    e = .timeout operation limit := by
  induction left generalizing h with
  | zero => exact (EStateM.Result.error.inj hrun).1.symm
  | succ left ih =>
      rcases error_of_bind hrun with hrun | ⟨heard, h₁, -, hrun⟩
      · exact absurd hrun send_error
      · cases hstop : stop heard with
        | none => rw [hstop] at hrun; exact ih hrun
        | some result => rw [hstop] at hrun; cases hrun

theorem exchange_error {mine theirs : Primitive}
    (hrun : (exchange operation mine theirs).run h = .error e h') :
    e = .timeout operation h.stepLimit :=
  poll_error hrun

theorem collect_error {limit left : Nat} {wire : Array UInt32}
    (hrun : (collect limit wire left).run h = .error e h') : e = .timeout .frameEnd limit := by
  induction left generalizing h wire with
  | zero => exact (EStateM.Result.error.inj hrun).1.symm
  | succ left ih =>
      rcases error_of_bind hrun with hrun | ⟨heard, h₁, -, hrun⟩
      · exact absurd hrun send_error
      · split at hrun
        · cases hrun
        · split at hrun
          · exact ih hrun
          · exact ih hrun

/-- A host that receives no frame has waited in vain, for as long as it waits. -/
theorem receiveFrame_error (hrun : receiveFrame.run h = .error e h') :
    ∃ operation ∈ [.frameAnnounced, .frameStart, .frameEnd],
      e = .timeout operation h.stepLimit := by
  rcases error_of_bind hrun with hrun | ⟨⟨⟩, h₁, hannounced, hrun⟩
  · exact ⟨.frameAnnounced, by decide, exchange_error hrun⟩
  obtain ⟨waits, -, rfl, -⟩ := exchange_ok hannounced
  rcases error_of_bind hrun with hrun | ⟨⟨⟩, h₂, hstart, hrun⟩
  · refine ⟨.frameStart, by decide, ?_⟩
    rw [exchange_error hrun, Host.stepLimit_after]
  obtain ⟨requests, -, rfl, -⟩ := exchange_ok hstart
  rcases error_of_bind hrun with hrun | ⟨host, h₃, hget, hrun⟩
  · cases hrun
  obtain ⟨rfl, rfl⟩ := EStateM.Result.ok.inj hget
  rcases error_of_bind hrun with hrun | ⟨wire, h₄, -, hrun⟩
  · refine ⟨.frameEnd, by decide, ?_⟩
    rw [collect_error hrun, Host.stepLimit_after, Host.stepLimit_after]
  rcases error_of_bind hrun with hrun | ⟨_, h₅, -, hrun⟩
  · exact absurd hrun send_error
  · cases hrun

end Error

end HostM

namespace Host

variable {h h' : Host} {log : List Fis}

/-! ### What comes is an answer -/

/-- If the host hears the start of a frame, this is the start of the frame at the head of the
queue. -/
theorem Reachable.sends_of_sof (hr : h.Reachable) {word : PhyWord}
    (hheard : (h.hears word).carries .sof = true) :
    ∃ frame queue, h.drive.link.state = .sendData ∧ h.drive.link.outbound = frame :: queue ∧
      h.backdrop.Linked { h.drive.link with coder := .initial, unsent := some frame }
        (h.after [word]) := by
  obtain ⟨hreceived, cut, hcut⟩ := hr.settled
  have hl := linked (hr.isReady_of_hears hheard)
  rw [hl.hears hreceived] at hheard
  rcases Link.driven_of_carries hheard with hdriven | ⟨hs, -, hstart⟩
  · cases hs : h.drive.link.state with
    | _ => rw [hs] at hdriven; cases hdriven
  -- Only a frame that has been agreed on and not yet begun is in flight at its start.
  obtain ⟨hne, hunsent⟩ : h.drive.link.outbound ≠ [] ∧ h.drive.link.unsent = none := by
    cases hcut with
    | quiet hq => rw [Link.Undecided, hs] at hq; exact hq.elim
    | agreed _ hne hunsent => exact ⟨hne, hunsent⟩
    | words _ ho hunsent =>
        rcases hstart with hnil | hnone
        · rw [ho] at hnil; cases hnil
        · rw [hunsent] at hnone; cases hnone
    | trailer hs' => rw [hs'] at hs; cases hs
  obtain ⟨frame, queue, ho⟩ := List.exists_cons_of_ne_nil hne
  obtain ⟨-, hl', -⟩ := hl.after_word hreceived
    (Link.accepted?_of_ne_rcvEof (by rw [hs]; decide) word)
  rw [Link.step_sendData_start hs ho hunsent] at hl'
  exact ⟨frame, queue, hs, ho, hl'⟩

/-- A frame that the host has received is an answer, whole and undamaged. -/
theorem History.answer_of_receiveFrame (hh : h.History log) {got : ReceivedFrame}
    (hrun : HostM.receiveFrame.run h = .ok got h') :
    ∃ waits requests takes,
      h' = h.after (HostM.receptionDialogue waits requests takes .ok) ∧
      ∃ fis ∈ log ++ h.replies (HostM.receptionDialogue waits requests takes .ok),
        got = { words := fis.toWords, wire := WireCoder.wireForm fis.toWords, intact := true } := by
  obtain ⟨waits, requests, limit, wire, h₁, hsof, hcollect, rfl, rfl⟩ := HostM.receiveFrame_ok hrun
  let opening : List PhyWord := List.replicate waits (.ofPrimitive .sync) ++
    List.replicate requests (.ofPrimitive .rRdy)
  have hbegun : (h.after opening).History (log ++ h.replies opening) := hh.after opening
  obtain ⟨frame, queue, hs, ho, hl⟩ := hbegun.reachable.sends_of_sof hsof
  obtain ⟨fis, hfis, rfl⟩ := hbegun.accounts frame (by rw [ho]; exact List.mem_cons_self)
  obtain ⟨rfl, ⟨takes, rfl⟩, -⟩ :=
    HostM.collect_ok hl hs ho rfl hbegun.reachable.settled.received hcollect
  have hgot : ReceivedFrame.ofWire (WireCoder.wireForm fis.toWords) =
      { words := fis.toWords, wire := WireCoder.wireForm fis.toWords, intact := true } := by
    rw [ReceivedFrame.ofWire_wireForm, fis.isEmpty_toWords]
    rfl
  rw [List.nil_append, ← WireCoder.wireForm_eq, hgot, if_pos rfl]
  have hdialogue : HostM.receptionDialogue waits (requests + 1) takes .ok = opening ++
      ([.ofPrimitive .rRdy] ++ List.replicate takes (.ofPrimitive .rIp) ++ [.ofPrimitive .ok]) := by
    simp only [HostM.receptionDialogue, opening, List.replicate_succ', List.append_assoc]
  refine ⟨waits, requests + 1, takes, ?_, fis, ?_, rfl⟩
  · simp only [hdialogue, opening, Host.after_append]
  · rw [hdialogue, replies_append, ← List.append_assoc]
    exact List.mem_append_left _ hfis

/-- A FIS of a reachable host fails to come only where the frame does. -/
theorem Reachable.receiveFis_error (hr : h.Reachable) {e : HostError}
    (hrun : HostM.receiveFis.run h = .error e h') :
    ∃ operation ∈ [.frameAnnounced, .frameStart, .frameEnd],
      e = .timeout operation h.stepLimit := by
  rcases HostM.error_of_bind hrun with hrun | ⟨got, h₁, hframe, hrun⟩
  · exact HostM.receiveFrame_error hrun
  · obtain ⟨log, hh⟩ := hr.history
    obtain ⟨-, -, -, -, fis, -, rfl⟩ := hh.answer_of_receiveFrame hframe
    obtain ⟨read, hread⟩ := fis.exists_ofWords
    simp only [if_true, hread] at hrun
    cases hrun

/-- **A frame that the host receives is never damaged.** Whatever state a reachable host is in,
when it has received a frame, the frame is intact, its wire words are those of its words, and it
is an answer that the command layer has given since the last reset, before the host began to
receive or meanwhile. A FIS that the host cannot receive has not come in time, nothing else. If
the drive is up, its link is at rest or offers a frame, and there is a frame at the head of the
queue for which the host waits long enough, the host does receive this frame; it alone leaves the
queue, and the link is at rest again. -/
theorem receiveFrame_intact (hreach : h.Reachable) :
    (∃ log, h.History log) ∧
    (∀ log, h.History log → ∀ got h', HostM.receiveFrame.run h = .ok got h' →
      got.intact = true ∧ got.wire = WireCoder.wireForm got.words ∧
      ∃ waits requests takes, h' = h.after (HostM.receptionDialogue waits requests takes .ok) ∧
        ∃ fis ∈ log ++ h.replies (HostM.receptionDialogue waits requests takes .ok),
          got.words = fis.toWords) ∧
    (∀ e h', HostM.receiveFis.run h = .error e h' →
      ∃ operation ∈ [.frameAnnounced, .frameStart, .frameEnd],
        e = .timeout operation h.stepLimit) ∧
    (h.drive.isReady = true → h.drive.link.state ∈ [.idle, .sendChkRdy] →
      ∀ frame queue, h.drive.link.outbound = frame :: queue →
        2 ≤ h.stepLimit → frame.length + 2 ≤ h.stepLimit →
        ∃ h', HostM.receiveFrame.run h =
            .ok { words := frame, wire := WireCoder.wireForm frame, intact := true } h' ∧
          h'.drive.link.outbound = queue ∧ h'.drive.link.state = .idle) := by
  refine ⟨hreach.history, ?_, fun e h' hrun => hreach.receiveFis_error hrun, ?_⟩
  · intro log hh got h' hrun
    obtain ⟨waits, requests, takes, hh', fis, hfis, rfl⟩ := hh.answer_of_receiveFrame hrun
    exact ⟨rfl, rfl, waits, requests, takes, hh', fis, hfis, rfl⟩
  · intro hready hstate frame queue ho hsteps hlength
    have hopen : h.drive.link.state = .idle ∨ h.drive.link.state = .sendChkRdy := by
      simpa using hstate
    have hquiet := hreach.quiet_of_open hready (hopen.imp_right .inl)
    rw [ho] at hquiet
    obtain ⟨h', hrun, l, hl, hlinked⟩ :=
      HostM.receiveFrame_does (b := h.backdrop) hopen hsteps hlength h hquiet
    -- An answer has words, so the frame counts as intact.
    obtain ⟨log, hh⟩ := hreach.history
    obtain ⟨fis, -, rfl⟩ := hh.accounts frame (by rw [ho]; exact List.mem_cons_self)
    rw [fis.isEmpty_toWords] at hrun
    refine ⟨h', hrun, ?_, ?_⟩
    · rw [hlinked.link, hl.outbound]
    · rw [hlinked.link, hl.state]

/-- The report on a command that the drive does not serve. -/
theorem receiveFrame_intact_report :
    let new : Host := .new (.new { LinkParameters.standard with alignCount := 1 } (.zeroed 0))
    let h := (HostM.sendFrame [0x00EC0027]).leaves
      (HostM.awaitIdle.leaves (HostM.bringUp.leaves new))
    h.Reachable ∧ h.drive.link.pending = 1 ∧
      ∃ got h', HostM.receiveFrame.run h = .ok got h' ∧ got.intact = true ∧
        (∃ fis : Fis, got.words = fis.toWords) ∧ h'.drive.link.pending = 0 := by
  intro new h
  have hreach : h.Reachable := .leaves (HostM.sendFrame_steps _)
    (.leaves HostM.awaitIdle_steps (.leaves HostM.bringUp_steps (.new _ _)))
  have hpending : h.drive.link.pending = 1 := by decide +kernel
  obtain ⟨frame, ho⟩ := List.length_eq_one_iff.mp hpending
  obtain ⟨⟨log, hh⟩, hanswer, -, hgets⟩ := receiveFrame_intact hreach
  have hlength : frame.length + 2 ≤ h.stepLimit := by
    have hhead : (h.drive.link.outbound.headD []).length + 2 ≤ h.stepLimit := by decide +kernel
    rw [ho] at hhead
    exact hhead
  obtain ⟨h', hrun, hqueue, -⟩ := hgets (by decide +kernel) (by decide +kernel) frame [] ho
    (by decide +kernel) hlength
  obtain ⟨hintact, -, waits, requests, takes, -, fis, -, hwords⟩ := hanswer log hh _ h' hrun
  refine ⟨hreach, hpending, _, h', hrun, hintact, ⟨fis, hwords⟩, ?_⟩
  rw [Link.pending, hqueue]
  rfl

end Host

end SerialAta
