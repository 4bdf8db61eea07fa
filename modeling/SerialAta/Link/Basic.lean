import SerialAta.Fis.Basic
import SerialAta.Frame.Wire
import SerialAta.Link.State
import SerialAta.Phy.Handshake
import SerialAta.Phy.Word
/-!
# SerialAta.Link.Basic

The **link layer** of the drive: frames in host order on the inside, PHY words on the
outside, one of them taken and one given in every step (`Link.step`).

* Outgoing frames wait in a queue. The frame at its head is the one in flight, and it
  leaves the queue with its end-of-frame primitive, not before.
* An incoming frame is collected word by word. The word that came last is held back,
  since only the next one tells whether it was data or the checksum.
* One `WireCoder` serves both directions. The link never sends and receives at the
  same time, and each direction reloads the coder when a frame starts.
-/

namespace SerialAta

/-! ### Parameters -/

/-- The settings of a link and of the handshake before it. -/
structure LinkParameters where
  /-- Length of the opening ALIGN burst. -/
  alignCount : UInt32
  /-- Consecutive idle steps of the host that make its burst a COMRESET. -/
  comresetIdleSteps : UInt32
  /-- The most words an incoming frame may have, its checksum not counted. -/
  maxFrameWords : Nat
  deriving DecidableEq, Repr

/-- A burst of a hundred, and frames that hold the largest data FIS. -/
def LinkParameters.standard : LinkParameters :=
  { alignCount := 100
    comresetIdleSteps := Handshake.defaultThreshold
    maxFrameWords := maxDataWords + 1 }

instance : Inhabited LinkParameters := ⟨LinkParameters.standard⟩

/-! ### Reception -/

/-- The incoming frame as far as it has come. -/
structure Reception where
  /-- Words known to be data, oldest first. -/
  words : Array UInt32
  /-- The word that came last, data or checksum. -/
  held : Option UInt32
  /-- The frame has more words than allowed. -/
  overflow : Bool
  deriving DecidableEq, Repr

namespace Reception

/-- No word yet. -/
def empty : Reception := { words := #[], held := none, overflow := false }

instance : Inhabited Reception := ⟨empty⟩

/-- Takes one more word. The word held back turns out to be data, which is kept
while there is room for it. -/
def push (r : Reception) (maxWords : Nat) (word : UInt32) : Reception :=
  match r with
  | { words, held := none, overflow } => { words, held := some word, overflow }
  | { words, held := some before, overflow } =>
    if words.size < maxWords then { words := words.push before, held := some word, overflow }
    else { words, held := some word, overflow := true }

/-- Whether the frame that has ended is intact: it has a word, none too many, and
the word held back is the checksum. -/
def isIntact (r : Reception) (crc : UInt32) : Bool :=
  !r.overflow && !r.words.isEmpty && r.held == some crc

end Reception

/-! ### The link and its queues -/

/-- The link layer of the drive. -/
structure Link where
  parameters : LinkParameters
  state : LinkState
  /-- The coder of the frame in flight, either way. -/
  coder : WireCoder
  /-- Frames to be sent, the one in flight at the head. -/
  outbound : List Frame
  /-- What is left of the frame in flight; `none` before its start is driven. -/
  unsent : Option (List UInt32)
  /-- The incoming frame. -/
  reception : Reception
  /-- Frames that came intact and have not been taken, oldest first. -/
  received : List Frame
  deriving DecidableEq, Repr

namespace Link

/-- A link that has not begun. -/
def new (parameters : LinkParameters) : Link :=
  { parameters
    state := .initial
    coder := .initial
    outbound := []
    unsent := none
    reception := .empty
    received := [] }

instance : Inhabited Link := ⟨new default⟩

/-- The link from the beginning; frames in either direction are dropped. -/
def reset (l : Link) : Link := new l.parameters

/-- Puts a frame at the end of the outgoing queue. -/
def enqueue (l : Link) (frame : Frame) : Link :=
  { l with outbound := l.outbound ++ [frame] }

/-- The number of frames whose end has not been driven. -/
def pending (l : Link) : Nat := l.outbound.length

/-- Takes the oldest frame received. -/
def popReceived (l : Link) : Option (Frame × Link) :=
  match l.received with
  | [] => none
  | frame :: rest => some (frame, { l with received := rest })

/-! ### One step -/

/-- The next word of the frame in flight, and whether it was the checksum. The
queue is not empty where the protocol gets here; if it were, the frame would be
closed at once. -/
def transmit (l : Link) : PhyWord × Bool × Link :=
  match l.outbound with
  | [] => (.ofPrimitive .sof, true, l)
  | frame :: _ =>
    match l.unsent with
    | none => (.ofPrimitive .sof, false, { l with coder := .initial, unsent := some frame })
    | some [] =>
      let (wire, coder) := l.coder.putCrc
      (.ofData wire, true, { l with coder })
    | some (word :: rest) =>
      let (wire, coder) := l.coder.putWord word
      (.ofData wire, false, { l with coder, unsent := some rest })

/-- Makes ready for the words of a frame. -/
def beginReceive (l : Link) : Link :=
  { l with coder := .initial, reception := .empty }

/-- Takes one wire word of the incoming frame. Data that no longer has room is
counted towards the checksum all the same. -/
def receive (l : Link) (wire : UInt32) : Link :=
  match l with
  | { parameters, state, coder, outbound, unsent, reception, received } =>
    let (word, coder) := coder.takeWord wire
    let coder := match reception.held with
      | none => coder
      | some before => coder.countWord before
    { parameters, state, coder, outbound, unsent, received
      reception := reception.push parameters.maxFrameWords word }

/-- Judges the frame that has ended, and keeps it if it is intact. -/
def endReceive (l : Link) : Bool × Link :=
  if l.reception.isIntact l.coder.crc then
    (true, { l with
      received := l.received ++ [l.reception.words.toList]
      reception := { l.reception with words := #[] } })
  else
    (false, l)

/-- The work of one step in the present state: the word driven, whether it was the
checksum of a frame, whether a frame was found intact, and the link after it. -/
def act (l : Link) (host : PhyWord) : PhyWord × Bool × Bool × Link :=
  match l.state with
  | .idle => (.ofPrimitive .sync, false, false, { l with coder := .initial })
  | .sendData =>
    let (word, last, l) := l.transmit
    (word, last, false, l)
  | .sendEof =>
    (.ofPrimitive .eof, false, false, { l with outbound := l.outbound.tail, unsent := none })
  | .rcvChkRdy =>
    let l := if host.asPrimitive? = some .sof then l.beginReceive else l
    (.ofPrimitive .rRdy, false, false, l)
  | .rcvData =>
    let l := if host.primitive then l else l.receive host.data
    (.ofPrimitive .rIp, false, false, l)
  | .rcvEof =>
    let (intact, l) := l.endReceive
    (.ofPrimitive .rIp, false, intact, l)
  | .sendAlign _ => (.ofPrimitive .align, false, false, l)
  | .sendChkRdy => (.ofPrimitive .xRdy, false, false, l)
  | .wait => (.ofPrimitive .wtrm, false, false, l)
  | .goodEnd => (.ofPrimitive .ok, false, false, l)
  | .badEnd => (.ofPrimitive .err, false, false, l)

/-- One step: takes the word of the host and gives the word of the drive. Whether
a frame is pending is judged after the work of the step, so a frame whose end was
just driven does not count. -/
def step (l : Link) (host : PhyWord) : PhyWord × Link :=
  let (word, frameSent, crcOk, l) := l.act host
  let seen : LinkState.Observation :=
    { host := host.asPrimitive?
      alignCount := l.parameters.alignCount
      framePending := !l.outbound.isEmpty
      frameSent, crcOk }
  (word, { l with state := l.state.next seen })

end Link

end SerialAta
