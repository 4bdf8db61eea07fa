import SerialAta.Phy.Primitive
/-!
# SerialAta.Link.State

The **states of the link** on the drive's side, and the transition between them.

The transition `LinkState.next` is a function of the state and of what one step
observes. It knows nothing of the words of a frame; those are the business of
`SerialAta.Link.Basic`. When host and drive both announce a frame the host wins: in
`idle` and in `sendChkRdy` its XRDY leads to reception, and the frame of the drive
waits.
-/

namespace SerialAta

/-- A protocol state of the link. -/
inductive LinkState
  /-- Driving the ALIGN burst that opens the link; `sent` of them are out. -/
  | sendAlign (sent : UInt32)
  /-- No frame either way. -/
  | idle
  /-- Announcing a frame until the host is ready. -/
  | sendChkRdy
  /-- Driving start of frame, words and checksum. -/
  | sendData
  /-- Driving end of frame. -/
  | sendEof
  /-- Waiting for the verdict of the host. -/
  | wait
  /-- The host announced a frame; ready for its start. -/
  | rcvChkRdy
  /-- Taking the words of a frame. -/
  | rcvData
  /-- The frame has ended; its checksum is examined. -/
  | rcvEof
  /-- Reporting an intact frame. -/
  | goodEnd
  /-- Reporting a damaged frame. -/
  | badEnd
  deriving DecidableEq, Repr

namespace LinkState

/-- The state after a reset. -/
def initial : LinkState := sendAlign 0

instance : Inhabited LinkState := ⟨initial⟩

/-- The primitive driven throughout a state; in `sendData` the word changes from
step to step. -/
def driven : LinkState → Option Primitive
  | sendAlign _ => some .align
  | idle => some .sync
  | sendChkRdy => some .xRdy
  | sendData => none
  | sendEof => some .eof
  | wait => some .wtrm
  | rcvChkRdy => some .rRdy
  | rcvData => some .rIp
  | rcvEof => some .rIp
  | goodEnd => some .ok
  | badEnd => some .err

/-- The name a protocol analyser shows. -/
def name : LinkState → String
  | sendAlign _ => "SEND_ALIGN"
  | idle => "IDLE"
  | sendChkRdy => "SEND_CHKRDY"
  | sendData => "SEND_DATA"
  | sendEof => "SEND_EOF"
  | wait => "WAIT"
  | rcvChkRdy => "RCV_CHKRDY"
  | rcvData => "RCV_DATA"
  | rcvEof => "RCVEOF"
  | goodEnd => "GOODEND"
  | badEnd => "BADEND"

/-- What one step observes. -/
structure Observation where
  /-- The primitive that the host drives, if it drives one. -/
  host : Option Primitive
  /-- Length of the opening ALIGN burst. -/
  alignCount : UInt32
  /-- A frame waits to be sent. -/
  framePending : Bool
  /-- The checksum of the outgoing frame was driven in this step. -/
  frameSent : Bool
  /-- The frame that has ended is intact. -/
  crcOk : Bool
  deriving DecidableEq, Repr

/-- The state of the next step. -/
def next (state : LinkState) (seen : Observation) : LinkState :=
  match state with
  | sendAlign sent => if seen.alignCount ≤ sent + 1 then idle else sendAlign (sent + 1)
  | idle =>
    if seen.host = some .xRdy then rcvChkRdy
    else if seen.framePending then sendChkRdy
    else idle
  | sendChkRdy =>
    match seen.host with
    | some .rRdy => sendData
    | some .xRdy => rcvChkRdy
    | _ => sendChkRdy
  | sendData => if seen.frameSent then sendEof else sendData
  | sendEof => wait
  | wait =>
    match seen.host with
    | some .sync | some .ok | some .err => idle
    | _ => wait
  | rcvChkRdy => if seen.host = some .sof then rcvData else rcvChkRdy
  | rcvData =>
    match seen.host with
    | some .eof => rcvEof
    | some .wtrm => badEnd
    | _ => rcvData
  | rcvEof => if seen.crcOk then goodEnd else badEnd
  | goodEnd => if seen.host = some .sync then idle else goodEnd
  | badEnd => if seen.host = some .sync then idle else badEnd

end LinkState

end SerialAta
