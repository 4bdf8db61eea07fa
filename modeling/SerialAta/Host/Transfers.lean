import SerialAta.Fis.Words
import SerialAta.Host.Basic
/-!
# SerialAta.Host.Transfers

**Commands as the host gives them**: each sends its command and goes through the FISes
that the protocol lays down, in both directions, up to the report of the drive.

A FIS out of turn ends the command with an error, with one exception: while data are
due either way the drive may report the end of the command instead, and that report is
the result.
-/

namespace SerialAta.HostM

/-- Sends a FIS that the drive has to accept. -/
def sendFis (fis : Fis) : HostM Unit := do
  if ← sendFrame fis.toWords then pure () else throw .rejected

/-- Receives a FIS. -/
def receiveFis : HostM Fis := do
  let frame ← receiveFrame
  if frame.intact then
    match Fis.ofWords frame.words with
    | .ok fis => pure fis
    | .error cause => throw (.undecodable cause)
  else throw .badCrc

/-- Fails over a FIS out of turn. -/
def unexpected (expected : Expectation) (got : Fis) : HostM α :=
  throw (.unexpectedFis expected got.typeByte)

/-- Receives the report that ends a command. -/
def receiveReport : HostM DeviceRegister := do
  match ← receiveFis with
  | .deviceRegister report => pure report
  | other => unexpected .deviceRegister other

/-- Receives the announcement of a data phase. -/
def receivePioSetup : HostM PioSetup := do
  match ← receiveFis with
  | .pioSetup setup => pure setup
  | other => unexpected .pioSetup other

/-- Sends payloads, each when the drive asks for it, and receives the report. -/
def sendPayloads : List (List UInt32) → HostM DeviceRegister
  | [] => receiveReport
  | payload :: payloads => do
    match ← receiveFis with
    | .dmaActivate =>
      sendFis (.data payload)
      sendPayloads payloads
    | .deviceRegister report => pure report
    | other => unexpected .dmaActivate other

/-- Writes whole sectors, at most 256, from sector `lba` on. -/
def writeSectors (lba : UInt64) (words : List UInt32) : HostM DeviceRegister := do
  let sectors := words.length / sectorWords
  sendFis (.hostRegister (.ofCommand .writeDma lba sectors.toUInt8))
  sendPayloads (chunks maxDataWords words)

/-- Receives data until the report comes. Each data FIS takes one frame out of the
queue of the drive, and nothing is added to the queue meanwhile. So `frames`, one more
than are queued, is never used up: the wait for a frame that is not there fails first. -/
def receivePayloads (words : List UInt32) : (frames : Nat) →
    HostM (List UInt32 × DeviceRegister)
  | 0 => do throw (.timeout .frameAnnounced (← get).stepLimit)
  | frames + 1 => do
    match ← receiveFis with
    | .data payload => receivePayloads (words ++ payload) frames
    | .deviceRegister report => pure (words, report)
    | other => unexpected .dataOrRegister other

/-- Reads sectors from sector `lba` on; a count of zero stands for 256. -/
def readSectors (lba : UInt64) (count : UInt8) : HostM (List UInt32 × DeviceRegister) := do
  sendFis (.hostRegister (.ofCommand .readDma lba count))
  let frames := (← get).drive.link.pending
  receivePayloads [] (frames + 1)

/-- Writes the sector buffer. -/
def writeBuffer (words : List UInt32) : HostM DeviceRegister := do
  sendFis (.hostRegister (.ofCommand .writeBuffer 0 1))
  let _ ← receivePioSetup
  sendFis (.data words)
  receiveReport

/-- Reads the sector buffer. -/
def readBuffer : HostM (List UInt32) := do
  sendFis (.hostRegister (.ofCommand .readBuffer 0 1))
  let _ ← receivePioSetup
  match ← receiveFis with
  | .data words => pure words
  | other => unexpected .data other

end SerialAta.HostM
