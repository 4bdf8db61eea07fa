import SerialAta.Drive.Disk
import SerialAta.Fis.Words
import SerialAta.Frame.Wire
/-!
# SerialAta.Drive.CommandLayer

The **command layer**: what the drive does about a frame that came intact, and what it
answers (`CommandLayer.handle`).

A command either is answered at once or opens a transfer, which the data FISes that
follow feed. A write to the disk goes on, one DMA Activate per data FIS, until the
command has all its words; a write to the sector buffer takes one data FIS. A new
write takes the place of one that was not finished, other frames leave it alone.
-/

namespace SerialAta

/-- The data that the drive waits for. -/
inductive Transfer
  | none
  /-- The words of a write to the disk, of which `done` out of `total` are on it. -/
  | writeDma (command : HostRegister) (done total : Nat)
  /-- The data FIS of a write to the sector buffer. -/
  | writeBuffer (command : HostRegister)
  deriving DecidableEq, Repr

/-- The state between two frames. -/
structure CommandLayer where
  /-- The transfer in progress. -/
  transfer : Transfer
  buffer : List UInt32
  deriving DecidableEq, Repr

namespace CommandLayer

/-- No transfer, and zeros in the buffer. -/
def new : CommandLayer :=
  { transfer := .none, buffer := List.replicate sectorWords 0 }

instance : Inhabited CommandLayer := ⟨new⟩

/-- Gives up the transfer in progress. The buffer keeps its words. -/
def reset (c : CommandLayer) : CommandLayer := { c with transfer := .none }

/-- Whether data are awaited. -/
def isBusy (c : CommandLayer) : Bool := c.transfer != .none

/-- The report that a command was carried out. -/
def complete (command : HostRegister) : Fis :=
  .deviceRegister (.complete command.lba command.sectorCount.toUInt16)

/-- The report that a command was refused. -/
def aborted (command : HostRegister) : Fis :=
  .deviceRegister (.aborted command.lba command.sectorCount.toUInt16)

/-- Carries out a command, or opens its transfer. -/
def handleCommand (c : CommandLayer) (disk : Disk) (command : HostRegister) :
    List Fis × CommandLayer :=
  let count := command.sectorCount
  match command.command with
  | .writeDma =>
    match disk.seek command.lba count with
    | .error _ => ([aborted command], c)
    | .ok _ =>
      ([.dmaActivate], { c with transfer := .writeDma command 0 (count * sectorWords) })
  | .readDma =>
    match disk.read command.lba count with
    | .error _ => ([aborted command], c)
    | .ok words => ((chunks maxDataWords words).map .data ++ [complete command], c)
  | .writeBuffer =>
    ([.pioSetup (.sector false)], { c with transfer := .writeBuffer command })
  | .readBuffer => ([.pioSetup (.sector true), .data c.buffer], c)
  | .other _ => ([aborted command], c)

/-- Feeds the transfer in progress. Words beyond the end of the transfer are
dropped; data that nobody waits for are ignored. -/
def handleData (c : CommandLayer) (disk : Disk) (payload : List UInt32) :
    List Fis × CommandLayer × Disk :=
  match c.transfer with
  | .none => ([], c, disk)
  | .writeDma command done total =>
    let words := payload.take (total - done)
    match disk.write command.lba done words with
    | (.error _, disk) => ([aborted command], { c with transfer := .none }, disk)
    | (.ok (), disk) =>
      let done := done + words.length
      if done < total then
        ([.dmaActivate], { c with transfer := .writeDma command done total }, disk)
      else
        ([complete command], { c with transfer := .none }, disk)
  | .writeBuffer command =>
    ([complete command], { transfer := .none, buffer := overlay payload c.buffer }, disk)

/-- Handles one frame: the answers, and the state of command layer and disk
afterwards. Frames that are neither a command nor data are ignored. -/
def handle (c : CommandLayer) (disk : Disk) (frame : Frame) :
    List Fis × CommandLayer × Disk :=
  match Fis.ofWords frame with
  | .ok (.hostRegister command) =>
    let (replies, c) := c.handleCommand disk command
    (replies, c, disk)
  | .ok (.data payload) => c.handleData disk payload
  | .ok (.deviceRegister _) | .ok .dmaActivate | .ok (.pioSetup _) => ([], c, disk)
  | .error _ => ([], c, disk)

end CommandLayer

end SerialAta
