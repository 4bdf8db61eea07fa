import SerialAta.Bus.Memory
import SerialAta.Drive.Disk
/-!
# SerialAta.Host.Error

What can go **wrong on the host's side** of link and bus.
-/

namespace SerialAta

/-- What the host waits for. `Operation.name` says what each is called in messages. -/
inductive Operation
  | comreset
  | cominit
  | comwake
  | driveComwake
  | phyReady
  | linkIdle
  | frameReady
  | frameStatus
  | frameAnnounced
  | frameStart
  | frameEnd
  | busWrite
  | busRead
  deriving DecidableEq, Repr

/-- The name of an operation in messages. -/
def Operation.name : Operation → String
  | comreset => "COMRESET"
  | cominit => "COMINIT"
  | comwake => "COMWAKE"
  | driveComwake => "device COMWAKE"
  | phyReady => "PHY ready"
  | linkIdle => "link idle"
  | frameReady => "RRDY"
  | frameStatus => "frame status"
  | frameAnnounced => "XRDY"
  | frameStart => "SOF"
  | frameEnd => "EOF"
  | busWrite => "bus write"
  | busRead => "bus read"

/-- The FIS that has its turn in the course of a command. -/
inductive Expectation
  | deviceRegister
  | dmaActivate
  | dataOrRegister
  | pioSetup
  | data
  deriving DecidableEq, Repr

/-- The name of an expected FIS in messages. -/
def Expectation.name : Expectation → String
  | deviceRegister => "Register D2H"
  | dmaActivate => "DMA Activate"
  | dataOrRegister => "Data or Register D2H"
  | pioSetup => "PIO Setup"
  | data => "Data"

/-- Why an operation of the host failed. -/
inductive HostError
  /-- The steps allowed for an operation are used up. -/
  | timeout (operation : Operation) (steps : Nat)
  /-- The drive found a frame of the host damaged. -/
  | rejected
  /-- A frame of the drive is damaged. -/
  | badCrc
  /-- A frame of the drive is no FIS. -/
  | undecodable (cause : FisError)
  /-- The drive sent another FIS than the one that has its turn. -/
  | unexpectedFis (expected : Expectation) (got : UInt8)
  /-- The disk cannot be filled from its image. -/
  | disk (cause : DiskError)
  /-- The memory cannot be made or filled from its image. -/
  | memory (cause : BusError)
  /-- More is asked for than one list, disk or memory can have. This ends the run: no one
  who asks gets to see it. -/
  | capacityOverflow
  deriving DecidableEq, Repr

/-- The wording of a failure. -/
def HostError.message : HostError → String
  | timeout operation steps =>
    operation.name ++ " did not finish within " ++ toString steps ++ " steps"
  | rejected => "device rejected the frame"
  | badCrc => "frame from device failed its CRC check"
  | undecodable cause => "undecodable frame from device: " ++ cause.message
  | unexpectedFis expected got =>
    "expected " ++ expected.name ++ ", device sent FIS type " ++ Hex.byte got
  | disk cause => "disk image: " ++ cause.message
  | memory cause => "bus memory: " ++ cause.message
  | capacityOverflow => "capacity overflow"

end SerialAta
