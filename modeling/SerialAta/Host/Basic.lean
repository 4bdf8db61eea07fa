import SerialAta.Drive.Basic
import SerialAta.Host.Error
/-!
# SerialAta.Host.Basic

The **host**: the controller at the other end of the link, which leads a drive step by
step through the handshakes of the protocol: bringing the link up, sending a frame,
receiving a frame.

Every operation waits in loops, and every loop may take as many steps as the host
allows (`Host.stepLimit`), counted from its own start. What the drive has done by the
time an operation fails stays done, so operations are programs over the host that keep
its state with an error (`HostM`).
-/

namespace SerialAta

/-! ### The host and its programs -/

/-- A host controller and the drive it is connected to. -/
structure Host where
  drive : Drive
  /-- Steps that one loop may take. -/
  stepLimit : Nat
  /-- Steps taken so far. -/
  steps : Nat

/-- A program of the host. It may fail, and keeps the state it failed in. -/
abbrev HostM := EStateM HostError Host

namespace Host

/-- Steps that a loop may take if nothing else is said. -/
def defaultStepLimit : Nat := 100000

/-- A host connected to a drive, before any step. -/
def new (drive : Drive) : Host :=
  { drive, stepLimit := defaultStepLimit, steps := 0 }

/-- One full step: a transmit step of the drive, then a receive step. -/
def cycle (h : Host) (tx : HostSignals) : (TxReply × DriveSignals) × Host :=
  match h with
  | { drive, stepLimit, steps } =>
    let (reply, drive) := drive.txEdge tx
    let (rx, drive) := drive.rxEdge
    ((reply, rx), { drive, stepLimit, steps := steps + 1 })

end Host

namespace HostM

/-! ### Steps and waiting -/

/-- One full step of the host and its drive. -/
def cycle (tx : HostSignals) : HostM (TxReply × DriveSignals) :=
  modifyGet fun h => h.cycle tx

/-- Sends one word and gives the word that the drive sends in the same step. -/
def send (word : PhyWord) : HostM PhyWord := do
  let (_, rx) ← cycle (.ofWord word)
  pure rx.word

/-- Sends a primitive. -/
def sendPrimitive (p : Primitive) : HostM PhyWord :=
  send (.ofPrimitive p)

/-- Repeats `act` until `stop` makes something of its result, at most `left` times.
`limit` is the number of times allowed from the start. -/
def poll (operation : Operation) (act : HostM α) (stop : α → Option β) (limit : Nat) :
    (left : Nat) → HostM β
  | 0 => throw (.timeout operation limit)
  | left + 1 => do
    match stop (← act) with
    | some result => pure result
    | none => poll operation act stop limit left

/-- Repeats `act` until `stop` makes something of its result, as often as the host
allows. -/
def await (operation : Operation) (act : HostM α) (stop : α → Option β) : HostM β := do
  let limit := (← get).stepLimit
  poll operation act stop limit limit

/-! ### Bringing the link up -/

/-- Waits in electrical idle for a signal of the drive. -/
def awaitSignal (operation : Operation) (signal : DriveSignals → Bool) : HostM Unit :=
  await operation (cycle .electricalIdle) fun (_, rx) => if signal rx then some () else none

/-- Sends a burst until the drive acknowledges it, then waits in electrical idle for
the answer, which may come in the same step. -/
def burst (request answer : Operation) (tx : HostSignals) (signal : DriveSignals → Bool) :
    HostM Unit := do
  let rx ← await request (cycle tx) fun (reply, rx) => if reply.comfinish then some rx else none
  if signal rx then pure () else awaitSignal answer signal

/-- Brings the link up: COMRESET and its answer, COMWAKE and its answer, and then
the end of electrical idle. -/
def bringUp : HostM Unit := do
  burst .comreset .cominit { HostSignals.electricalIdle with cominit := true } (·.cominit)
  burst .comwake .driveComwake { HostSignals.electricalIdle with comwake := true } (·.comwake)
  awaitSignal .phyReady (·.phyReady)

/-! ### Frames -/

/-- Sends a primitive until the drive sends another. -/
def exchange (operation : Operation) (mine theirs : Primitive) : HostM Unit :=
  await operation (sendPrimitive mine) fun word => if word.carries theirs then some () else none

/-- Sends SYNC until the drive sends it too. -/
def awaitIdle : HostM Unit :=
  exchange .linkIdle .sync .sync

/-- Sends data words in order. -/
def sendWords : List UInt32 → HostM Unit
  | [] => pure ()
  | word :: words => do
    let _ ← send (.ofData word)
    sendWords words

/-- Sends a frame and gives the verdict of the drive: whether it came intact. -/
def sendFrame (frame : Frame) : HostM Bool := do
  exchange .frameReady .xRdy .rRdy
  let _ ← sendPrimitive .sof
  sendWords (WireCoder.wireForm frame)
  let _ ← sendPrimitive .eof
  let verdict ← await .frameStatus (sendPrimitive .wtrm) fun word =>
    match word.asPrimitive? with
    | some .ok => some true
    | some .err => some false
    | _ => none
  let _ ← sendPrimitive .sync
  pure verdict

/-- Takes the data words that the drive sends until its frame ends; primitives between
them do not count. -/
def collect (limit : Nat) (wire : Array UInt32) : (left : Nat) → HostM (List UInt32)
  | 0 => throw (.timeout .frameEnd limit)
  | left + 1 => do
    let word ← sendPrimitive .rIp
    if word.carries .eof then pure wire.toList
    else if word.primitive then collect limit wire left
    else collect limit (wire.push word.data) left

/-- Waits for a frame of the drive, receives it, and answers whether it came intact. -/
def receiveFrame : HostM ReceivedFrame := do
  exchange .frameAnnounced .sync .xRdy
  exchange .frameStart .rRdy .sof
  let limit := (← get).stepLimit
  let frame := ReceivedFrame.ofWire (← collect limit #[] limit)
  let _ ← sendPrimitive (if frame.intact then .ok else .err)
  pure frame

end HostM

end SerialAta
