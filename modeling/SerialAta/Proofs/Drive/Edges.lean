import SerialAta.Drive.Basic
import SerialAta.Proofs.Link.Step
/-!
# SerialAta.Proofs.Drive.Edges

**One edge of the drive**, as far as link, command layer and disk are concerned.

Before the handshake is done an edge moves the handshake alone (`txEdge_waiting`,
`rxEdge_eq`). Afterwards each transmit edge is one step of the link (`txEdge_ready`). If the
link accepts no frame in it, that is all (`stepLink_none`). If it accepts one, the command
layer handles this frame at once and the answers are queued (`stepLink_some`). The link never
holds a frame from one edge to the next, and that is the premise of both.
-/

namespace SerialAta

namespace Handshake

/-- The transmit side alone neither ends the handshake nor undoes its end. -/
@[simp] theorem isDone_listen (h : Handshake) (cominit comwake elecidle : Bool) :
    (h.listen cominit comwake elecidle).2.isDone = h.isDone := by
  unfold listen isDone
  dsimp only
  generalize (if elecidle = true then countIdle h.idleSteps else 0) = steps
  split
  · next hc => rw [hc.1]; rfl
  · split
    · next hc => rw [hc.2.1]; rfl
    · rfl

/-- A handshake that is done has given both answers. -/
theorem isDone_iff {h : Handshake} :
    h.isDone = true ↔ h.cominit = .sent ∧ h.comwake = .sent := by
  simp [isDone]

theorem answer_of_done {h : Handshake} (hd : h.isDone = true) :
    h.answer = ({ cominit := false, comwake := false }, h) := by
  obtain ⟨hi, hw⟩ := isDone_iff.mp hd
  cases h with
  | mk threshold steps cominit comwake =>
      obtain rfl : cominit = .sent := hi
      obtain rfl : comwake = .sent := hw
      rfl

end Handshake

namespace Drive

variable {d : Drive}

/-! ### Handling a frame -/

/-- The answers to a frame, as frames. -/
def answers (d : Drive) (frame : Frame) : List Frame :=
  (d.commands.handle d.disk frame).1.map Fis.toWords

theorem foldl_enqueue (replies : List Fis) (l : Link) :
    replies.foldl (fun link fis => link.enqueue fis.toWords) l =
      { l with outbound := l.outbound ++ replies.map Fis.toWords } := by
  induction replies generalizing l with
  | nil => rw [List.map_nil, List.append_nil]; rfl
  | cons fis replies ih => rw [List.foldl_cons, ih, Link.enqueue, List.append_assoc]; rfl

/-- What the handling of a frame changes. -/
theorem deliver_eq (d : Drive) (frame : Frame) :
    d.deliver frame =
      { d with
        link := { d.link with outbound := d.link.outbound ++ d.answers frame }
        commands := (d.commands.handle d.disk frame).2.1
        disk := (d.commands.handle d.disk frame).2.2
        lastReceived := frame } := by
  rw [answers, ← foldl_enqueue]
  rfl

/-! ### A step of the link -/

theorem stepLink_eq (d : Drive) (host : PhyWord) :
    d.stepLink host =
      ((d.link.step host).2.received).foldl deliver
        { d with
          link := { (d.link.step host).2 with received := [] }
          output := some (d.link.step host).1 } := rfl

theorem stepLink_none (hr : d.link.received = []) {host : PhyWord}
    (ha : d.link.accepted? host = none) :
    d.stepLink host =
      { d with link := (d.link.step host).2, output := some (d.link.step host).1 } := by
  have hempty : (d.link.step host).2.received = [] := by
    rw [Link.step_received, hr, ha]
    rfl
  rw [stepLink_eq, hempty, List.foldl_nil, ← hempty]

theorem stepLink_some (hr : d.link.received = []) {host : PhyWord} {frame : Frame}
    (ha : d.link.accepted? host = some frame) :
    d.stepLink host =
      { d with
        link := { (d.link.step host).2 with
          received := []
          outbound := (d.link.step host).2.outbound ++ d.answers frame }
        commands := (d.commands.handle d.disk frame).2.1
        disk := (d.commands.handle d.disk frame).2.2
        output := some (d.link.step host).1
        lastReceived := frame } := by
  have hone : (d.link.step host).2.received = [frame] := by
    rw [Link.step_received, hr, ha]
    rfl
  rw [stepLink_eq, hone, List.foldl_cons, List.foldl_nil, deliver_eq]
  rfl

/-- Answers that are queued do not move the link on. -/
theorem stepLink_state (hr : d.link.received = []) (host : PhyWord) :
    (d.stepLink host).link.state = (d.link.step host).2.state ∧
      (d.stepLink host).output = some (d.link.step host).1 := by
  cases ha : d.link.accepted? host with
  | none => rw [stepLink_none hr ha]; exact ⟨rfl, rfl⟩
  | some frame => rw [stepLink_some hr ha]; exact ⟨rfl, rfl⟩

/-- The handshake has no part in a step of the link. -/
theorem stepLink_handshake (hr : d.link.received = []) (host : PhyWord) :
    (d.stepLink host).handshake = d.handshake := by
  cases ha : d.link.accepted? host with
  | none => rw [stepLink_none hr ha]
  | some frame => rw [stepLink_some hr ha]

/-! ### Edges -/

/-- The drive after its handshake has listened to the host. -/
def listened (d : Drive) (tx : HostSignals) : Drive :=
  { d with handshake := (d.handshake.listen tx.cominit tx.comwake tx.elecidle).2 }

@[simp] theorem link_listened (d : Drive) (tx : HostSignals) :
    (d.listened tx).link = d.link := rfl

theorem txEdge_reset {tx : HostSignals} (h : tx.reset = true) : (d.txEdge tx).2 = d.reset := by
  rw [txEdge, if_pos h]

theorem txEdge_waiting (hw : d.isReady = false) {tx : HostSignals} (h : tx.reset = false) :
    (d.txEdge tx).2 = d.listened tx := by
  rw [isReady] at hw
  simp [txEdge, listened, h, hw]

theorem txEdge_ready (hr : d.isReady = true) {tx : HostSignals} (h : tx.reset = false) :
    (d.txEdge tx).2 = (d.listened tx).stepLink tx.word := by
  rw [isReady] at hr
  simp [txEdge, listened, h, hr]

/-- What a transmit edge can be: a reset, a step of the handshake alone, or one of the link, too. -/
theorem txEdge_cases (d : Drive) (tx : HostSignals) :
    tx.reset = true ∧ (d.txEdge tx).2 = d.reset ∨
      tx.reset = false ∧ d.isReady = false ∧ (d.txEdge tx).2 = d.listened tx ∨
      tx.reset = false ∧ d.isReady = true ∧ (d.txEdge tx).2 = (d.listened tx).stepLink tx.word := by
  cases hreset : tx.reset with
  | true => exact .inl ⟨rfl, txEdge_reset hreset⟩
  | false =>
      cases hready : d.isReady with
      | false => exact .inr (.inl ⟨rfl, rfl, txEdge_waiting hready hreset⟩)
      | true => exact .inr (.inr ⟨rfl, rfl, txEdge_ready hready hreset⟩)

theorem rxEdge_eq (d : Drive) : d.rxEdge.2 = { d with handshake := d.handshake.answer.2 } := rfl

/-- The transmit side does not end the handshake. -/
theorem txEdge_isReady (hreceived : d.link.received = []) {tx : HostSignals}
    (h : tx.reset = false) : (d.txEdge tx).2.isReady = d.isReady := by
  have hlisten : (d.listened tx).handshake.isDone = d.isReady := Handshake.isDone_listen ..
  cases hready : d.isReady with
  | false => rw [txEdge_waiting hready h, ← hready]; exact hlisten
  | true =>
      rw [txEdge_ready hready h, ← hready, isReady,
        stepLink_handshake (d := d.listened tx) hreceived tx.word]
      exact hlisten

/-- Transmit edges report whether the handshake is done. -/
theorem txEdge_ready_of_waiting (hw : d.isReady = false) (tx : HostSignals) :
    (d.txEdge tx).1.ready = false := by
  rw [isReady] at hw
  cases hreset : tx.reset <;> simp [txEdge, hreset, hw]

/-- A drive that is up stays up. -/
theorem rxEdge_isReady (h : d.isReady = true) : d.rxEdge.2.isReady = true := by
  rw [rxEdge_eq, isReady, Handshake.answer_of_done h]
  exact h

end Drive

end SerialAta
