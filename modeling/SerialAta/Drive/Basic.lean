import SerialAta.Drive.CommandLayer
import SerialAta.Link.Basic
/-!
# SerialAta.Drive.Basic

The **drive** as its host sees it: signals in on every transmit step
(`Drive.txEdge`), signals out on every receive step (`Drive.rxEdge`).

The drive puts handshake, link, command layer and disk together. The link is stepped
only once the handshake is done. Every frame it accepts is handled within the same
transmit step, and the answers wait in the link.
-/

namespace SerialAta

/-! ### Signals -/

/-- What the host drives in one transmit step. -/
structure HostSignals where
  /-- Reset of the whole drive. -/
  reset : Bool
  cominit : Bool
  comwake : Bool
  elecidle : Bool
  word : PhyWord
  deriving DecidableEq, Repr

/-- The host drives a word and nothing else. -/
def HostSignals.ofWord (word : PhyWord) : HostSignals :=
  { reset := false, cominit := false, comwake := false, elecidle := false, word }

/-- The host drives nothing. -/
def HostSignals.electricalIdle : HostSignals :=
  { reset := false, cominit := false, comwake := false, elecidle := true, word := default }

/-- What the drive answers in a transmit step. -/
structure TxReply where
  /-- A burst of the host is acknowledged. -/
  comfinish : Bool
  /-- The handshake is done. -/
  ready : Bool
  deriving DecidableEq, Repr

/-- What the drive drives in one receive step. -/
structure DriveSignals where
  cominit : Bool
  comwake : Bool
  elecidle : Bool
  /-- The lanes carry a word of the link. -/
  valid : Bool
  word : PhyWord
  /-- The link is up. -/
  phyReady : Bool
  deriving DecidableEq, Repr

/-! ### The drive -/

/-- A drive. -/
structure Drive where
  /-- The handshake that comes first. -/
  handshake : Handshake
  link : Link
  commands : CommandLayer
  disk : Disk
  /-- The word of the latest link step, shown until the next one. -/
  output : Option PhyWord
  /-- The frame accepted last; empty before the first one. -/
  lastReceived : Frame

namespace Drive

/-- A drive before its first handshake. -/
def new (parameters : LinkParameters) (disk : Disk) : Drive :=
  { handshake := .new parameters.comresetIdleSteps
    link := .new parameters
    commands := .new
    disk
    output := none
    lastReceived := [] }

/-- The drive before a handshake. What is on the disk and in the sector buffer
stays. -/
def reset (d : Drive) : Drive :=
  { handshake := d.handshake.reset
    link := d.link.reset
    commands := d.commands.reset
    disk := d.disk
    output := none
    lastReceived := [] }

/-! ### Steps -/

/-- Handles a frame that the link has accepted, and queues the answers. -/
def deliver (d : Drive) (frame : Frame) : Drive :=
  match d with
  | { handshake, link, commands, disk, output, lastReceived := _ } =>
    let (replies, commands, disk) := commands.handle disk frame
    { handshake, commands, disk, output
      link := replies.foldl (fun link fis => link.enqueue fis.toWords) link
      lastReceived := frame }

/-- Handles every frame that the link has accepted, oldest first. -/
def deliverReceived (d : Drive) : Drive :=
  let frames := d.link.received
  frames.foldl deliver { d with link := { d.link with received := [] } }

/-- One step of the link, and the handling of the frame it may have accepted. -/
def stepLink (d : Drive) (word : PhyWord) : Drive :=
  match d with
  | { handshake, link, commands, disk, output := _, lastReceived } =>
    let (out, link) := link.step word
    deliverReceived { handshake, link, commands, disk, output := some out, lastReceived }

/-- One transmit step. -/
def txEdge (d : Drive) (tx : HostSignals) : TxReply × Drive :=
  if tx.reset then
    ({ comfinish := false, ready := false }, d.reset)
  else
    let (comfinish, handshake) := d.handshake.listen tx.cominit tx.comwake tx.elecidle
    let ready := handshake.isDone
    let d := { d with handshake }
    ({ comfinish, ready }, if ready then d.stepLink tx.word else d)

/-- One receive step. -/
def rxEdge (d : Drive) : DriveSignals × Drive :=
  let (levels, handshake) := d.handshake.answer
  let ready := handshake.isDone
  ({ cominit := levels.cominit
     comwake := levels.comwake
     elecidle := !ready
     valid := ready && d.output.isSome
     word := d.output.getD default
     phyReady := ready },
    { d with handshake })

/-- Whether the handshake is done. -/
def isReady (d : Drive) : Bool := d.handshake.isDone

/-- Whether answers wait to be sent or data are awaited. -/
def isBusy (d : Drive) : Bool := d.link.pending != 0 || d.commands.isBusy

end Drive

end SerialAta
