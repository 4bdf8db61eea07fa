import SerialAta.Fis.Basic
import SerialAta.Storage.Directory
import SerialAta.Storage.Store
/-!
# SerialAta.Drive.Disk

The **disk**: a whole number of sectors, kept as words in host order.

Access is by sectors or, for writing, by words from the start of a sector; it is
checked before anything is read or changed (`Disk.seek`). The image of a disk is
the little-endian bytes of its words.
-/

namespace SerialAta

/-- A disk and its contents. -/
structure Disk where
  sectors : Nat
  /-- The words of all sectors. -/
  words : Store (sectors * sectorWords)

/-- Why an access to a disk or to its image failed. -/
inductive DiskError
  /-- The image file cannot be read or written. -/
  | io (cause : FileError)
  /-- The image file is smaller than the disk, in bytes. -/
  | shortImage (read expected : Nat)
  /-- Sectors were asked for that the disk does not have. -/
  | outOfRange (lba : UInt64) (count sectors : Nat)
  deriving DecidableEq, Repr

/-- The wording of a disk error. -/
def DiskError.message : DiskError → String
  | io cause => "disk image I/O error: " ++ cause.message
  | shortImage read expected =>
    "disk image holds " ++ toString read ++ " of " ++ toString expected ++
      " bytes; remainder zero-filled"
  | outOfRange lba count sectors =>
    "LBA " ++ toString lba ++ " + " ++ toString count ++ " sectors exceeds disk of " ++
      toString sectors ++ " sectors"

namespace Disk

/-- A disk of zeros. It is meant to have no more than `maxBytes` bytes; that there is room
for it is not examined. -/
def zeroed (sectors : Nat) : Disk :=
  { sectors, words := .zeros _ }

instance : Inhabited Disk := ⟨zeroed 0⟩

/-- Bytes of a disk. -/
def byteSize (d : Disk) : Nat := d.sectors * sectorBytes

/-- A disk of `sectors` sectors that starts with the given bytes and is zero
after them. Bytes beyond its end are dropped. -/
def sized (sectors : Nat) (bytes : Bytes) : Disk :=
  { sectors, words := .ofPrefix _ (ByteImage.wordCount bytes) (ByteImage.littleWord bytes) }

/-- The smallest disk that holds the given bytes. -/
def ofBytes (bytes : Bytes) : Disk :=
  sized ((bytes.size + (sectorBytes - 1)) / sectorBytes) bytes

/-- The image of a disk. -/
def toBytes (d : Disk) : Bytes :=
  ByteImage.ofWordsLittle d.words.toArray

/-- The disk whose image is a file, as large as the file. -/
def openImage (dir : Directory) (name : String) : Except DiskError Disk :=
  match dir.read name with
  | .ok bytes => .ok (ofBytes bytes)
  | .error cause => .error (.io cause)

/-- Fills a disk from an image file and keeps its size. What the file does not
cover is zero afterwards, also where the file is missing or too short, which is
reported. -/
def load (d : Disk) (dir : Directory) (name : String) : Except DiskError Unit × Disk :=
  match dir.read name with
  | .error cause => (.error (.io cause), zeroed d.sectors)
  | .ok bytes =>
    let result := if bytes.size < d.byteSize then
        .error (.shortImage bytes.size d.byteSize)
      else .ok ()
    (result, sized d.sectors bytes)

/-- Saves the image of a disk. -/
def save (d : Disk) (dir : Directory) (name : String) : Except DiskError Directory :=
  match dir.write name d.toBytes with
  | .ok dir => .ok dir
  | .error cause => .error (.io cause)

/-- The first of `count` sectors from `lba` on, if the disk has them all. -/
def seek (d : Disk) (lba : UInt64) (count : Nat) : Except DiskError Nat :=
  if lba.toNat + count ≤ d.sectors then .ok lba.toNat
  else .error (.outOfRange lba count d.sectors)

/-- The words of `count` sectors from `lba` on. -/
def read (d : Disk) (lba : UInt64) (count : Nat) : Except DiskError (List UInt32) :=
  match d.seek lba count with
  | .error e => .error e
  | .ok first =>
    .ok (d.words.slice (first * sectorWords) (count * sectorWords))

/-- The number of sectors, counted from the one that an offset in words is taken
from, within which a run of words must end. An empty run still needs the sector of its
offset. -/
def reach (offset length : Nat) : Nat :=
  max ((offset + length + (sectorWords - 1)) / sectorWords) (offset / sectorWords + 1)

/-- Writes words from `offset` words after the start of sector `lba` on. Either
all of them are written or, on an error, none. -/
def write (d : Disk) (lba : UInt64) (offset : Nat) (words : List UInt32) :
    Except DiskError Unit × Disk :=
  match d.seek lba (reach offset words.length) with
  | .error e => (.error e, d)
  | .ok first =>
    match d with
    | { sectors, words := cells } =>
      (.ok (), { sectors, words := cells.overlayAt (first * sectorWords + offset) words })

end Disk

end SerialAta
