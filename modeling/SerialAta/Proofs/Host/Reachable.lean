import SerialAta.Proofs.Host.Exchange
import SerialAta.Proofs.Link.Transmission
/-!
# SerialAta.Proofs.Host.Reachable

**The hosts that can come about**, and what holds of all of them.

`Host.Reachable` has one rule for each thing that can be done to a host and its drive. The
programs of the host need no rule of their own: all they do is take steps (`HostM.Steps`), so
they lead from reachable hosts to reachable hosts (`Reachable.leaves`,
`Reachable.leaves_commands`).

What holds of the drive of a reachable host is `Drive.Settled`: no frame is left over that the
link has accepted, and what has begun of a frame to be sent is as `Link.InFlight` has it.
-/

namespace SerialAta

/-! ### Reachable hosts -/

/-- The hosts that can come about. -/
inductive Host.Reachable : Host → Prop
  /-- A host with a new drive. -/
  | new (parameters : LinkParameters) (disk : Disk) : Reachable (.new (.new parameters disk))
  /-- Another step limit. -/
  | setLimit {h : Host} (limit : Nat) : h.Reachable → Reachable { h with stepLimit := limit }
  /-- A full step, with any signals. -/
  | cycle {h : Host} (tx : HostSignals) : h.Reachable → Reachable (h.cycle tx).2
  /-- A transmit edge of the drive alone. -/
  | txEdge {d : Drive} {limit steps : Nat} (tx : HostSignals) :
      Reachable ⟨d, limit, steps⟩ → Reachable ⟨(d.txEdge tx).2, limit, steps⟩
  /-- A receive edge of the drive alone. -/
  | rxEdge {d : Drive} {limit steps : Nat} :
      Reachable ⟨d, limit, steps⟩ → Reachable ⟨d.rxEdge.2, limit, steps⟩
  /-- A reset of the drive. -/
  | reset {d : Drive} {limit steps : Nat} :
      Reachable ⟨d, limit, steps⟩ → Reachable ⟨d.reset, limit, steps⟩
  /-- Another disk. -/
  | setDisk {d : Drive} {limit steps : Nat} (disk : Disk) :
      Reachable ⟨d, limit, steps⟩ → Reachable ⟨{ d with disk }, limit, steps⟩

namespace HostM

variable {α β : Type}

/-- The host after a program, whether it has failed or not. -/
def leaves (x : HostM α) (h : Host) : Host :=
  match x.run h with
  | .ok _ h' => h'
  | .error _ h' => h'

theorem leaves_of_ok {x : HostM α} {h h' : Host} {a : α} (hrun : x.run h = .ok a h') :
    x.leaves h = h' := by
  rw [leaves, hrun]

theorem leaves_of_error {x : HostM α} {h h' : Host} {e : HostError}
    (hrun : x.run h = .error e h') : x.leaves h = h' := by
  rw [leaves, hrun]

/-- The program does nothing to the host but take steps: what every step keeps, it keeps. -/
def Steps (x : HostM α) : Prop :=
  ∀ P : Host → Prop, (∀ h tx, P h → P (h.cycle tx).2) → ∀ h, P h → P (x.leaves h)

theorem Steps.stepLimit_leaves {x : HostM α} (hx : x.Steps) (h : Host) :
    (x.leaves h).stepLimit = h.stepLimit :=
  hx (fun h' => h'.stepLimit = h.stepLimit) (fun _ _ hlimit => hlimit) h rfl

/-! ### How programs are put together -/

theorem Steps.pure (a : α) : Steps (Pure.pure a) := fun _ _ _ hp => hp

theorem Steps.throw (e : HostError) : Steps (throw e : HostM α) := fun _ _ _ hp => hp

theorem Steps.get : Steps (get : HostM Host) := fun _ _ _ hp => hp

theorem Steps.cycle (tx : HostSignals) : Steps (cycle tx) := fun _ hstep h hp => hstep h tx hp

theorem Steps.bind {x : HostM α} {f : α → HostM β} (hx : Steps x) (hf : ∀ a, Steps (f a)) :
    Steps (x >>= f) := by
  intro P hstep h hp
  have hfirst := hx P hstep h hp
  unfold leaves at hfirst ⊢
  rw [EStateM.run_bind]
  cases hrun : x.run h with
  | ok a h' =>
      rw [hrun] at hfirst
      exact hf a P hstep h' hfirst
  | error e h' =>
      rw [hrun] at hfirst
      exact hfirst

theorem Steps.poll {operation : Operation} {act : HostM α} {stop : α → Option β} {limit : Nat}
    (hact : Steps act) (left : Nat) : Steps (poll operation act stop limit left) := by
  induction left with
  | zero => exact .throw _
  | succ left ih =>
      refine hact.bind fun a => ?_
      cases stop a with
      | none => exact ih
      | some result => exact .pure result

theorem Steps.await {operation : Operation} {act : HostM α} {stop : α → Option β}
    (hact : Steps act) : Steps (await operation act stop) :=
  Steps.get.bind fun h => hact.poll h.stepLimit

/-! ### The programs of the host -/

theorem send_steps (word : PhyWord) : Steps (send word) :=
  (Steps.cycle _).bind fun _ => .pure _

theorem awaitSignal_steps (operation : Operation) (signal : DriveSignals → Bool) :
    Steps (awaitSignal operation signal) :=
  (Steps.cycle _).await

theorem burst_steps (request answer : Operation) (tx : HostSignals)
    (signal : DriveSignals → Bool) : Steps (burst request answer tx signal) := by
  refine (Steps.cycle tx).await.bind fun rx => ?_
  split
  · exact .pure ()
  · exact awaitSignal_steps answer signal

theorem bringUp_steps : Steps bringUp :=
  (burst_steps _ _ _ _).bind fun _ => (burst_steps _ _ _ _).bind fun _ => awaitSignal_steps _ _

theorem exchange_steps (operation : Operation) (mine theirs : Primitive) :
    Steps (exchange operation mine theirs) :=
  (send_steps _).await

theorem awaitIdle_steps : Steps awaitIdle := exchange_steps _ _ _

theorem sendWords_steps (words : List UInt32) : Steps (sendWords words) := by
  induction words with
  | nil => exact .pure ()
  | cons word words ih => exact (send_steps _).bind fun _ => ih

theorem sendFrame_steps (frame : Frame) : Steps (sendFrame frame) := by
  refine (exchange_steps _ _ _).bind fun _ => (send_steps _).bind fun _ => ?_
  refine (sendWords_steps _).bind fun _ => (send_steps _).bind fun _ => ?_
  exact (send_steps _).await.bind fun verdict => (send_steps _).bind fun _ => .pure verdict

theorem collect_steps (limit : Nat) (wire : Array UInt32) (left : Nat) :
    Steps (collect limit wire left) := by
  induction left generalizing wire with
  | zero => exact .throw _
  | succ left ih =>
      refine (send_steps _).bind fun word => ?_
      split
      · exact .pure _
      · split
        · exact ih wire
        · exact ih _

theorem receiveFrame_steps : Steps receiveFrame := by
  refine (exchange_steps _ _ _).bind fun _ => (exchange_steps _ _ _).bind fun _ => ?_
  refine Steps.get.bind fun h => (collect_steps _ _ _).bind fun wire => ?_
  exact (send_steps _).bind fun _ => .pure _

theorem sendFis_steps (fis : Fis) : Steps (sendFis fis) := by
  refine (sendFrame_steps _).bind fun good => ?_
  split
  · exact .pure ()
  · exact .throw _

theorem receiveFis_steps : Steps receiveFis := by
  refine receiveFrame_steps.bind fun frame => ?_
  split
  · split
    · exact .pure _
    · exact .throw _
  · exact .throw _

theorem receiveReport_steps : Steps receiveReport := by
  refine receiveFis_steps.bind fun fis => ?_
  split
  · exact .pure _
  · exact .throw _

theorem receivePioSetup_steps : Steps receivePioSetup := by
  refine receiveFis_steps.bind fun fis => ?_
  split
  · exact .pure _
  · exact .throw _

theorem sendPayloads_steps (payloads : List (List UInt32)) : Steps (sendPayloads payloads) := by
  induction payloads with
  | nil => exact receiveReport_steps
  | cons payload payloads ih =>
      refine receiveFis_steps.bind fun fis => ?_
      split
      · exact (sendFis_steps _).bind fun _ => ih
      · exact .pure _
      · exact .throw _

theorem writeSectors_steps (lba : UInt64) (words : List UInt32) :
    Steps (writeSectors lba words) :=
  (sendFis_steps _).bind fun _ => sendPayloads_steps _

theorem receivePayloads_steps (words : List UInt32) (frames : Nat) :
    Steps (receivePayloads words frames) := by
  induction frames generalizing words with
  | zero => exact Steps.get.bind fun _ => .throw _
  | succ frames ih =>
      refine receiveFis_steps.bind fun fis => ?_
      split
      · exact ih _
      · exact .pure _
      · exact .throw _

theorem readSectors_steps (lba : UInt64) (count : UInt8) : Steps (readSectors lba count) :=
  (sendFis_steps _).bind fun _ => Steps.get.bind fun _ => receivePayloads_steps _ _

theorem writeBuffer_steps (words : List UInt32) : Steps (writeBuffer words) := by
  refine (sendFis_steps _).bind fun _ => receivePioSetup_steps.bind fun _ => ?_
  exact (sendFis_steps _).bind fun _ => receiveReport_steps

theorem readBuffer_steps : Steps readBuffer := by
  refine (sendFis_steps _).bind fun _ => receivePioSetup_steps.bind fun _ => ?_
  refine receiveFis_steps.bind fun fis => ?_
  split
  · exact .pure _
  · exact .throw _

end HostM

/-! ### What holds of every reachable host -/

namespace Drive

/-- Between two edges: no frame that the link has accepted is left over, and what has begun of
a frame to be sent is in flight. -/
structure Settled (d : Drive) : Prop where
  received : d.link.received = []
  inFlight : ∃ cut, d.link.InFlight cut

theorem settled_new (parameters : LinkParameters) (disk : Disk) : (new parameters disk).Settled :=
  ⟨rfl, [], Link.inFlight_new parameters⟩

variable {d : Drive}

theorem settled_reset (d : Drive) : d.reset.Settled :=
  ⟨rfl, [], Link.inFlight_new d.link.parameters⟩

/-- Only the link matters. -/
theorem Settled.of_link {d' : Drive} (h : d.Settled) (hl : d'.link = d.link) : d'.Settled :=
  ⟨hl ▸ h.received, hl ▸ h.inFlight⟩

theorem Settled.stepLink (h : d.Settled) (host : PhyWord) : (d.stepLink host).Settled := by
  obtain ⟨hreceived, cut, hcut⟩ := h
  obtain ⟨cut', hnext⟩ := hcut.next host
  cases ha : d.link.accepted? host with
  | none =>
      rw [stepLink_none hreceived ha]
      exact ⟨by rw [Link.step_received, hreceived, ha]; rfl, cut', hnext⟩
  | some frame =>
      -- The answers are queued behind the frame in flight.
      rw [stepLink_some hreceived ha]
      exact ⟨rfl, cut', hnext.of_queued rfl rfl rfl rfl⟩

theorem Settled.txEdge (h : d.Settled) (tx : HostSignals) : (d.txEdge tx).2.Settled := by
  have hlistened : (d.listened tx).Settled := h.of_link rfl
  rcases d.txEdge_cases tx with ⟨-, htx⟩ | ⟨-, -, htx⟩ | ⟨-, -, htx⟩
  · rw [htx]
    exact settled_reset d
  · rw [htx]
    exact hlistened
  · rw [htx]
    exact hlistened.stepLink tx.word

theorem Settled.rxEdge (h : d.Settled) : d.rxEdge.2.Settled := h.of_link rfl

/-- Until the handshake is done, the link has not begun and no word of it stands at the
output. -/
def SleepsUntilReady (d : Drive) : Prop :=
  d.isReady = false → d.link = .new d.link.parameters ∧ d.output = none

/-- An edge that leaves handshake, link and output alone as far as this is concerned. -/
theorem SleepsUntilReady.of_eq {d' : Drive} (h : d.SleepsUntilReady) (hl : d'.link = d.link)
    (ho : d'.output = d.output) (hr : d'.isReady = false → d.isReady = false) :
    d'.SleepsUntilReady := by
  intro hready
  rw [hl, ho]
  exact h (hr hready)

theorem SleepsUntilReady.txEdge (h : d.SleepsUntilReady) (hreceived : d.link.received = [])
    (tx : HostSignals) : (d.txEdge tx).2.SleepsUntilReady := by
  rcases d.txEdge_cases tx with ⟨-, htx⟩ | ⟨-, hready, htx⟩ | ⟨hreset, hready, -⟩
  · rw [htx]
    exact fun _ => ⟨rfl, rfl⟩
  · rw [htx]
    exact h.of_eq rfl rfl fun _ => hready
  · intro hdown
    rw [txEdge_isReady hreceived hreset, hready] at hdown
    cases hdown

theorem SleepsUntilReady.rxEdge (h : d.SleepsUntilReady) : d.rxEdge.2.SleepsUntilReady := by
  refine h.of_eq rfl rfl fun hdown => ?_
  cases hready : d.isReady with
  | false => rfl
  | true =>
      rw [rxEdge_isReady hready] at hdown
      cases hdown

/-- What every frame and every reset keep of the command layer, every transmit edge keeps. -/
theorem commands_txEdge {P : CommandLayer → Prop} (hreset : ∀ c, P c → P c.reset)
    (hhandle : ∀ c disk frame, P c → P (c.handle disk frame).2.1) (hp : P d.commands)
    (hreceived : d.link.received = []) (tx : HostSignals) : P (d.txEdge tx).2.commands := by
  rcases d.txEdge_cases tx with ⟨-, htx⟩ | ⟨-, -, htx⟩ | ⟨-, -, htx⟩
  · rw [htx]
    exact hreset d.commands hp
  · rw [htx]
    exact hp
  · have hlistened : (d.listened tx).link.received = [] := hreceived
    rw [htx]
    cases ha : (d.listened tx).link.accepted? tx.word with
    | none =>
        rw [stepLink_none hlistened ha]
        exact hp
    | some frame =>
        rw [stepLink_some hlistened ha]
        exact hhandle d.commands d.disk frame hp

/-- The drive is up, and nothing is under way on its link. -/
structure AtRest (d : Drive) : Prop where
  isReady : d.isReady = true
  state : d.link.state = .idle
  pending : d.link.pending = 0

/-- A drive at rest is busy only with a transfer. -/
theorem AtRest.isBusy (h : d.AtRest) : d.isBusy = d.commands.isBusy := by
  rw [Drive.isBusy, h.pending]
  rfl

end Drive

namespace Host

variable {h : Host}

/-- A program that takes steps leads from reachable hosts to reachable hosts. -/
theorem Reachable.leaves {α : Type} {x : HostM α} (hx : x.Steps) (hr : h.Reachable) :
    (x.leaves h).Reachable :=
  hx Reachable (fun _ tx hh => .cycle tx hh) h hr

/-- The host is reachable after each of its commands, however the command has ended: what holds of
reachable hosts holds before and after every command of a session. -/
theorem Reachable.leaves_commands (hr : h.Reachable) :
    (HostM.bringUp.leaves h).Reachable ∧ (HostM.awaitIdle.leaves h).Reachable ∧
    (∀ lba words, ((HostM.writeSectors lba words).leaves h).Reachable) ∧
    (∀ lba count, ((HostM.readSectors lba count).leaves h).Reachable) ∧
    (∀ words, ((HostM.writeBuffer words).leaves h).Reachable) ∧
    (HostM.readBuffer.leaves h).Reachable :=
  ⟨hr.leaves HostM.bringUp_steps, hr.leaves HostM.awaitIdle_steps,
    fun lba words => hr.leaves (HostM.writeSectors_steps lba words),
    fun lba count => hr.leaves (HostM.readSectors_steps lba count),
    fun words => hr.leaves (HostM.writeBuffer_steps words), hr.leaves HostM.readBuffer_steps⟩

/-- The drive of a reachable host is settled. -/
theorem Reachable.settled (hr : h.Reachable) : h.drive.Settled := by
  induction hr with
  | new parameters disk => exact Drive.settled_new parameters disk
  | setLimit _ _ ih => exact ih
  | cycle tx _ ih => exact (ih.txEdge tx).rxEdge
  | txEdge tx _ ih => exact ih.txEdge tx
  | rxEdge _ ih => exact ih.rxEdge
  | @reset d _ _ _ _ => exact Drive.settled_reset d
  | setDisk _ _ ih => exact ih.of_link rfl

/-- The drive of a reachable host sleeps until the handshake is done. -/
theorem Reachable.sleepsUntilReady (hr : h.Reachable) : h.drive.SleepsUntilReady := by
  induction hr with
  | new parameters disk => exact fun _ => ⟨rfl, rfl⟩
  | setLimit _ _ ih => exact ih
  | cycle tx hr ih => exact (ih.txEdge hr.settled.received tx).rxEdge
  | txEdge tx hr ih => exact ih.txEdge hr.settled.received tx
  | rxEdge _ ih => exact ih.rxEdge
  | @reset d _ _ _ _ => exact fun _ => ⟨rfl, rfl⟩
  | setDisk _ _ ih => exact ih

/-- What a new command layer has, and every frame and every reset keep, the command layer of a
reachable host has. -/
theorem Reachable.commands {P : CommandLayer → Prop} (hnew : P .new)
    (hreset : ∀ c, P c → P c.reset) (hhandle : ∀ c disk frame, P c → P (c.handle disk frame).2.1)
    (hr : h.Reachable) : P h.drive.commands := by
  induction hr with
  | new parameters disk => exact hnew
  | setLimit _ _ ih => exact ih
  | cycle tx hr ih => exact Drive.commands_txEdge hreset hhandle ih hr.settled.received tx
  | txEdge tx hr ih => exact Drive.commands_txEdge hreset hhandle ih hr.settled.received tx
  | rxEdge _ ih => exact ih
  | @reset d _ _ _ ih => exact hreset d.commands ih
  | setDisk _ _ ih => exact ih

/-- A reachable host whose drive offers a frame, is ready for one or does neither: no frame is in
flight. -/
theorem Reachable.quiet_of_open (hr : h.Reachable) (hready : h.drive.isReady = true)
    (hopen : h.drive.link.state = .idle ∨ h.drive.link.state = .sendChkRdy ∨
      h.drive.link.state = .rcvChkRdy) :
    h.backdrop.Quiet h.drive.link.state h.drive.link.parameters h.drive.link.outbound h := by
  obtain ⟨hreceived, cut, hcut⟩ := hr.settled
  have hunsent : h.drive.link.unsent = none := by
    cases hcut with
    | quiet _ hu => exact hu
    | agreed hs => rw [hs] at hopen; simp at hopen
    | words hs => rw [hs] at hopen; simp at hopen
    | trailer hs => rw [hs] at hopen; simp at hopen
  exact ⟨h.drive.link, ⟨rfl, rfl, rfl, hunsent, hreceived⟩, linked hready⟩

/-- A reachable host whose drive is at rest can begin an exchange. -/
theorem Reachable.quiet (hr : h.Reachable) (hrest : h.drive.AtRest) :
    h.backdrop.Quiet .idle h.drive.link.parameters [] h := by
  obtain ⟨hready, hs, hpending⟩ := hrest
  have hquiet := hr.quiet_of_open hready (.inl hs)
  rw [hs, List.eq_nil_of_length_eq_zero hpending] at hquiet
  exact hquiet

end Host

/-- After an exchange that leaves nothing to be sent, the drive is at rest again. -/
theorem Backdrop.Quiet.atRest {b : Backdrop} {parameters : LinkParameters} {h : Host}
    (hq : b.Quiet .idle parameters [] h) : h.drive.AtRest := by
  obtain ⟨l, hl, hlinked⟩ := hq
  obtain rfl := hlinked.link
  refine ⟨hlinked.isReady, hl.state, ?_⟩
  rw [Link.pending, hl.outbound]
  rfl

theorem Backdrop.Quiet.behind {b : Backdrop} {state : LinkState} {parameters : LinkParameters}
    {queue : List Frame} {h : Host} (hq : b.Quiet state parameters queue h) :
    h.drive.commands = b.commands ∧ h.drive.disk = b.disk := by
  obtain ⟨l, -, hlinked⟩ := hq
  exact ⟨hlinked.commands, hlinked.disk⟩

/-- What the drive is busy with then. -/
theorem Backdrop.Quiet.isBusy {b : Backdrop} {parameters : LinkParameters} {h : Host}
    (hq : b.Quiet .idle parameters [] h) : h.drive.isBusy = b.commands.isBusy := by
  rw [hq.atRest.isBusy, hq.behind.1]

end SerialAta
