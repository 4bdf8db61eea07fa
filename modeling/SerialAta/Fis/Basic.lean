import SerialAta.Text.Hex
/-!
# SerialAta.Fis.Basic

**Frame information structures** (FIS): the messages that host and drive exchange,
and the geometry they speak of.

Five kinds suffice for a drive that serves DMA and buffer transfers. The host
sends register FISes with commands, and data; the drive answers with register
FISes that report completion, with DMA Activate and PIO Setup, which open a data
phase, and with data. Their layout in words is in `SerialAta.Fis.Words`.
-/

namespace SerialAta

/-- Bytes of a sector. -/
def sectorBytes : Nat := 512

/-- Words of a sector. -/
def sectorWords : Nat := sectorBytes / 4

/-- The most words that one data FIS carries (8 KiB). -/
def maxDataWords : Nat := 2048

/-- What the host asks for. Codes without a meaning here are kept, so that the
drive can refuse them. -/
inductive Command
  /-- Sectors from the disk, in data FISes. -/
  | readDma
  /-- Sectors onto the disk, a data FIS at a time. -/
  | writeDma
  /-- The sector buffer, to the host. -/
  | readBuffer
  /-- The sector buffer, from the host. -/
  | writeBuffer
  /-- A code that the drive does not serve. -/
  | other (code : UInt8)
  deriving DecidableEq, Repr

namespace Command

/-- The command of a code. -/
def ofCode (code : UInt8) : Command :=
  if code = 0xC8 then readDma
  else if code = 0xCA then writeDma
  else if code = 0xE4 then readBuffer
  else if code = 0xE8 then writeBuffer
  else other code

/-- The code of a command. -/
def code : Command → UInt8
  | readDma => 0xC8
  | writeDma => 0xCA
  | readBuffer => 0xE4
  | writeBuffer => 0xE8
  | other code => code

@[simp] theorem code_ofCode (c : UInt8) : (ofCode c).code = c := by
  unfold ofCode
  repeat' split
  all_goals simp_all [code]

end Command

/-- A register FIS from the host: a command and the sectors it is about. -/
structure HostRegister where
  command : Command
  features : UInt8
  /-- First sector; the layout carries 48 bits of it. -/
  lba : UInt64
  /-- Number of sectors as the register holds it: eight bits, zero for 256. -/
  count : UInt8
  deriving DecidableEq, Repr

namespace HostRegister

/-- A command for `count` sectors from `lba` on, with no features. -/
def ofCommand (command : Command) (lba : UInt64) (count : UInt8) : HostRegister :=
  { command, features := 0, lba, count }

/-- The number of sectors a command is about, between 1 and 256. -/
def sectorCount (r : HostRegister) : Nat :=
  if r.count = 0 then 256 else r.count.toNat

theorem sectorCount_pos (r : HostRegister) : 0 < r.sectorCount := by
  unfold sectorCount
  split
  · decide
  · next h => exact Nat.pos_of_ne_zero fun h' => h (UInt8.toNat_inj.mp (by simpa using h'))

end HostRegister

/-- The device register with the bit that selects block addresses. -/
def deviceLba : UInt8 := 0x40

/-- A register FIS from the drive: how a command ended. -/
structure DeviceRegister where
  status : UInt8
  error : UInt8
  /-- Interrupt bit and multiplier address. -/
  flags : UInt8
  device : UInt8
  /-- First sector of the command; the layout carries 48 bits of it. -/
  lba : UInt64
  /-- Number of sectors of the command. -/
  count : UInt16
  deriving DecidableEq, Repr

namespace DeviceRegister

/-- The report of a command that was carried out. -/
def complete (lba : UInt64) (count : UInt16) : DeviceRegister :=
  { status := 0x77, error := 0, flags := 0, device := deviceLba, lba, count }

/-- The report of a command that was refused: the error bit in the status, and
the abort bit in the error register. -/
def aborted (lba : UInt64) (count : UInt16) : DeviceRegister :=
  { status := 0x51, error := 0x04, flags := 0, device := deviceLba, lba, count }

/-- An error is reported by the error bit together with its reason; a status of
`0x77` has the bit but gives no reason. -/
def isError (r : DeviceRegister) : Bool :=
  r.status &&& 0x01 != 0 && r.error != 0

end DeviceRegister

/-- A PIO Setup FIS: it announces one data phase under program control. -/
structure PioSetup where
  /-- Whether the data flow from the drive to the host. -/
  toHost : Bool
  /-- Status register at the start. -/
  status : UInt8
  /-- Status register at the end. -/
  endStatus : UInt8
  /-- Bytes of the data phase. -/
  transferBytes : UInt16
  deriving DecidableEq, Repr

/-- The setup for one sector in the given direction. -/
def PioSetup.sector (toHost : Bool) : PioSetup :=
  { toHost, status := 0, endStatus := 0x01, transferBytes := 512 }

/-- A frame information structure. -/
inductive Fis
  /-- A command from the host. -/
  | hostRegister (r : HostRegister)
  /-- A report from the drive. -/
  | deviceRegister (r : DeviceRegister)
  /-- The drive is ready for the next data FIS of a write. -/
  | dmaActivate
  /-- The drive opens a data phase under program control. -/
  | pioSetup (s : PioSetup)
  /-- Data, in either direction. -/
  | data (payload : List UInt32)
  deriving DecidableEq, Repr

/-- The byte that names the kind of a FIS. -/
def Fis.typeByte : Fis → UInt8
  | hostRegister _ => 0x27
  | deviceRegister _ => 0x34
  | dmaActivate => 0x39
  | pioSetup _ => 0x5F
  | data _ => 0x46

/-- Why a frame is no FIS. -/
inductive FisError
  /-- The frame has no words. -/
  | empty
  /-- The first byte names no kind. -/
  | unknownType (type : UInt8)
  /-- The frame is shorter than the layout of its kind. -/
  | truncated (type : UInt8) (expected got : Nat)
  deriving DecidableEq, Repr

/-- The wording of a decoding error. -/
def FisError.message : FisError → String
  | empty => "empty FIS"
  | unknownType type => "unknown FIS type " ++ Hex.byte type
  | truncated type expected got =>
    "FIS type " ++ Hex.byte type ++ " needs " ++ toString expected ++ " words, got " ++
      toString got

end SerialAta
