/-!
# SerialAta.Phy.Handshake

The **out-of-band handshake** that wakes the link, as the drive takes part in it.

While nobody drives the lanes, host and drive signal by bursts. The host opens with
COMRESET, a COMINIT burst out of electrical idle, and later sends COMWAKE. The drive
acknowledges a burst it has waited for with a pulse on the transmit side, and
answers it on the receive side: COMINIT after COMRESET, COMWAKE after COMWAKE, each
for exactly one step. Once both answers have come and gone the handshake is done, and
it stays so until a reset.

Transmit and receive side are clocked apart, so their steps (`Handshake.listen`,
`Handshake.answer`) may come in any order.
-/

namespace SerialAta

/-- How far the drive is with one of its two answers. -/
inductive BurstPhase
  /-- The host burst that asks for the answer has not come. -/
  | waiting
  /-- The burst has come; the answer starts with the next receive step. -/
  | detected
  /-- The answer is being given. -/
  | asserted
  /-- The answer is over. -/
  | sent
  deriving DecidableEq, Repr

/-- The phase on the next receive step. -/
def BurstPhase.next : BurstPhase → BurstPhase
  | waiting => waiting
  | detected => asserted
  | asserted => sent
  | sent => sent

/-- The answers that the drive gives in one receive step. -/
structure HandshakeSignals where
  cominit : Bool
  comwake : Bool
  deriving DecidableEq, Repr

/-- The drive's side of the handshake. -/
structure Handshake where
  /-- Consecutive idle steps of the host that make its burst a COMRESET. -/
  idleThreshold : UInt32
  /-- Consecutive idle steps of the host so far; the count stays at its maximum. -/
  idleSteps : UInt32
  /-- The answer to COMRESET. -/
  cominit : BurstPhase
  /-- The answer to COMWAKE. -/
  comwake : BurstPhase
  deriving DecidableEq, Repr

namespace Handshake

/-- A handshake that has not begun. -/
def new (idleThreshold : UInt32) : Handshake :=
  { idleThreshold, idleSteps := 0, cominit := .waiting, comwake := .waiting }

/-- One idle step takes a host out of reset. -/
def defaultThreshold : UInt32 := 1

/-- The handshake from the beginning. -/
def reset (h : Handshake) : Handshake := new h.idleThreshold

/-- Both answers have been given and are over. -/
def isDone (h : Handshake) : Bool :=
  h.cominit == .sent && h.comwake == .sent

/-- One more idle step, up to the largest count. -/
def countIdle (n : UInt32) : UInt32 :=
  if n = 0xFFFFFFFF then n else n + 1

/-- Takes the levels the host drives in one transmit step. The result tells
whether a burst is acknowledged: COMRESET if it was not seen before and the host has
idled long enough, otherwise COMWAKE once COMINIT is over. -/
def listen (h : Handshake) (cominit comwake elecidle : Bool) : Bool × Handshake :=
  let h := { h with idleSteps := if elecidle then countIdle h.idleSteps else 0 }
  if h.cominit = .waiting ∧ cominit ∧ h.idleThreshold ≤ h.idleSteps then
    (true, { h with cominit := .detected })
  else if h.cominit = .sent ∧ h.comwake = .waiting ∧ comwake then
    (true, { h with comwake := .detected })
  else
    (false, h)

/-- Moves both answers on by one receive step and gives their levels. -/
def answer (h : Handshake) : HandshakeSignals × Handshake :=
  let h := { h with cominit := h.cominit.next, comwake := h.comwake.next }
  ({ cominit := h.cominit == .asserted, comwake := h.comwake == .asserted }, h)

end Handshake

end SerialAta
