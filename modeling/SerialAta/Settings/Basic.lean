import SerialAta.Bus.Memory
import SerialAta.Drive.Disk
import SerialAta.Link.Basic
/-!
# SerialAta.Settings.Basic

The **settings** of a simulation, their defaults, and what they must satisfy.

Settings come in three sections: link, bus memory and disk. A setting that is not given
has its default. Images are named relative to the directory of the settings
(`Settings.resolve`).
-/

namespace SerialAta

/-- Settings of the link. -/
structure LinkSettings where
  /-- Length of the opening ALIGN burst. -/
  alignCount : UInt32
  /-- Idle steps of the host that make its burst a COMRESET. -/
  comresetIdleSteps : UInt32
  deriving DecidableEq, Repr

/-- Settings of the bus memory. -/
structure MemorySettings where
  /-- Size in words. -/
  words : Nat
  /-- Steps from acceptance to response. -/
  delay : UInt32
  /-- One request in so many stalls; zero for none. -/
  stallOneIn : UInt32
  /-- Seed of the stalls. -/
  seed : Option UInt64
  /-- Words of a beat. -/
  wordsPerBeat : UInt32
  /-- Image that the memory is filled from. -/
  image : Option String
  deriving DecidableEq, Repr

/-- Settings of the disk. -/
structure DiskSettings where
  /-- Size in sectors. -/
  sectors : Nat
  /-- Image that the disk is filled from. -/
  image : Option String
  deriving DecidableEq, Repr

/-- Settings of a simulation. -/
structure Settings where
  /-- The link. -/
  link : LinkSettings
  /-- The bus memory. -/
  memory : MemorySettings
  /-- The disk. -/
  disk : DiskSettings
  deriving DecidableEq, Repr

namespace Settings

/-- What holds if nothing is set: the standard link and memory, and a disk of a
megabyte. -/
def standard : Settings :=
  { link :=
      { alignCount := LinkParameters.standard.alignCount
        comresetIdleSteps := LinkParameters.standard.comresetIdleSteps }
    memory :=
      { words := BusParameters.standard.words
        delay := BusParameters.standard.delay
        stallOneIn := BusParameters.standard.stallOneIn
        seed := BusParameters.standard.seed
        wordsPerBeat := BusParameters.standard.wordsPerBeat
        image := none }
    disk := { sectors := 2048, image := none } }

instance : Inhabited Settings := ⟨standard⟩

/-- The parameters of the link. Frames may be as long as they ever need to be. -/
def linkParameters (s : Settings) : LinkParameters :=
  { LinkParameters.standard with
    alignCount := s.link.alignCount
    comresetIdleSteps := s.link.comresetIdleSteps }

/-- The parameters of the bus memory. -/
def busParameters (s : Settings) : BusParameters :=
  { words := s.memory.words
    delay := s.memory.delay
    stallOneIn := s.memory.stallOneIn
    seed := s.memory.seed
    wordsPerBeat := s.memory.wordsPerBeat }

/-- There is room for what the settings ask for: for the bytes of the disk and for those
of the memory. The examination for defects says nothing about this. -/
structure Fits (s : Settings) : Prop where
  disk : s.disk.sectors * sectorBytes ≤ maxBytes
  memory : 4 * ceilPowerOfTwo (max s.memory.words s.memory.wordsPerBeat.toNat) ≤ maxBytes

/-- A setting that makes no sense. -/
inductive Defect
  /-- An ALIGN burst without an ALIGN. -/
  | alignCount
  /-- A response in the step of its request. -/
  | delay
  /-- A beat of a number of words that is none of 1, 2, 4, 8 and 16. -/
  | wordsPerBeat (given : UInt32)
  /-- A memory without words. -/
  | words
  /-- A disk without sectors. -/
  | sectors
  deriving DecidableEq, Repr

/-- The wording of a defect. -/
def Defect.message : Defect → String
  | alignCount => "link.align_count must be at least 1"
  | delay => "memory.delay must be at least 1"
  | wordsPerBeat given =>
    "memory.words_per_beat must be a power of two between 1 and 16, got " ++ toString given
  | words => "memory.words must be at least 1"
  | sectors => "disk.sectors must be at least 1"

/-- The first defect of settings, if they have one. -/
def defect? (s : Settings) : Option Defect :=
  if s.link.alignCount = 0 then some .alignCount
  else if s.memory.delay = 0 then some .delay
  else if ¬(1 ≤ s.memory.wordsPerBeat ∧ s.memory.wordsPerBeat ≤ 16) ∨
      ¬s.memory.wordsPerBeat.toNat.isPowerOfTwo then
    some (.wordsPerBeat s.memory.wordsPerBeat)
  else if s.memory.words = 0 then some .words
  else if s.disk.sectors = 0 then some .sectors
  else none

/-- The path of `name` seen from `base`: a name that starts with a slash stands for
itself, any other follows the base after one slash. -/
def resolvePath (base name : String) : String :=
  if name.startsWith "/" then name
  else if base.isEmpty || base.endsWith "/" then base ++ name
  else base ++ "/" ++ name

/-- The settings with the names of images seen from `base`. -/
def resolve (base : String) (s : Settings) : Settings :=
  { s with
    memory := { s.memory with image := s.memory.image.map (resolvePath base) }
    disk := { s.disk with image := s.disk.image.map (resolvePath base) } }

end Settings

end SerialAta
