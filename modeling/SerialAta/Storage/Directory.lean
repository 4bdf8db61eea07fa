import SerialAta.Storage.ByteImage
/-!
# SerialAta.Storage.Directory

A **directory** with files and folders, as far as loading and saving images needs one.

A name is followed step by step, as file systems do: what stands before a slash must be
a folder, `.` stays where it is and `..` goes up. A name that starts with a slash starts
from the top of the file system. Of what lies around the directory nothing is known but
the folders it is in, and what has been written there.
-/

namespace SerialAta

/-- Why a file cannot be read or written. -/
inductive FileError
  /-- The name has the character that ends names. -/
  | nulInName
  /-- The name, or one of its parts, is too long. -/
  | nameTooLong
  /-- Nothing has that name, or the folder to write into does not exist. -/
  | notFound
  /-- A file stands where a folder has to be. -/
  | notADirectory
  /-- A folder stands where a file has to be. -/
  | isADirectory
  deriving DecidableEq, Repr

/-- The wording of a file error, with the number that operating systems give it if they
have come to know of it. -/
def FileError.message : FileError → String
  | nulInName => "file name contained an unexpected NUL byte"
  | nameTooLong => "File name too long (os error 36)"
  | notFound => "No such file or directory (os error 2)"
  | notADirectory => "Not a directory (os error 20)"
  | isADirectory => "Is a directory (os error 21)"

/-- The folder that a place is reckoned from. -/
inductive Anchor
  /-- The folder so many levels above the directory; none for the directory itself. -/
  | above (levels : Nat)
  /-- The top of the file system. -/
  | top
  deriving DecidableEq, Repr

/-- A place in the file system, whether or not something is there. -/
structure Place where
  /-- The folder that the names are reckoned from. -/
  anchor : Anchor
  /-- The names on the way down. -/
  names : List String
  deriving DecidableEq, Repr

namespace Place

/-- The place of the directory itself. -/
def home : Place := ⟨.above 0, []⟩

/-- The place of a name in the folder at a place. -/
def inner (p : Place) (name : String) : Place := { p with names := p.names ++ [name] }

/-- The place of the folder around a place; the top has none around it. -/
def outer : Place → Place
  | ⟨.above levels, []⟩ => ⟨.above (levels + 1), []⟩
  | ⟨.top, []⟩ => ⟨.top, []⟩
  | ⟨anchor, names⟩ => ⟨anchor, names.dropLast⟩

end Place

/-- What stands at a place. -/
inductive DirectoryEntry
  /-- A file and its content. -/
  | file (bytes : Bytes)
  /-- A folder; what it holds is entered at places of its own. -/
  | folder

/-- A directory and what is known of the file system around it. -/
structure Directory where
  /-- The entries by their places. The folders that places are reckoned from have none. -/
  entries : List (Place × DirectoryEntry)

namespace Directory

/-- A directory without entries. -/
def empty : Directory := { entries := [] }

/-- The parts of a name, which slashes set apart. -/
def parts (name : String) : List String :=
  (name.toList.splitOn '/').map String.ofList

/-! ### Building a directory -/

/-- The directory with an entry put in the place of what was there. -/
def insert (d : Directory) (place : Place) (entry : DirectoryEntry) : Directory :=
  { entries := (place, entry) :: d.entries.filter fun e => e.1 != place }

/-- Makes the folders `names`, each in the one before it, the first in `outer`. -/
def makeFolders (d : Directory) (outer : Place) : (names : List String) → Directory
  | [] => d
  | name :: names =>
    let inner := outer.inner name
    (d.insert inner .folder).makeFolders inner names

/-- The parts of a plain name, without those that stay where they are. -/
def plainParts (name : String) : List String :=
  (parts name).filter fun part => part != "" && part != "."

/-- Makes a folder and those around it. -/
def addFolder (d : Directory) (name : String) : Directory :=
  d.makeFolders .home (plainParts name)

/-- Enters a file together with the folders around it. -/
def addFile (d : Directory) (name : String) (bytes : Bytes) : Directory :=
  let parts := plainParts name
  (d.makeFolders .home parts.dropLast).insert { Place.home with names := parts } (.file bytes)

/-! ### Following names -/

/-- The most bytes of one part of a name. -/
def maxPartBytes : Nat := 255

/-- The most bytes of a whole name. -/
def maxNameBytes : Nat := 4095

/-- What stands at a place. -/
def entryAt? (d : Directory) (place : Place) : Option DirectoryEntry :=
  if place.names = [] then some .folder else d.entries.lookup place

/-- The place one part of a name further. The step starts from a folder. -/
def enter (d : Directory) (place : Place) (part : String) : Except FileError Place :=
  match d.entryAt? place with
  | none => .error .notFound
  | some (.file _) => .error .notADirectory
  | some .folder =>
    if part = "" ∨ part = "." then .ok place
    else if part = ".." then .ok place.outer
    else if maxPartBytes < part.utf8ByteSize then .error .nameTooLong
    else .ok (place.inner part)

/-- The place that the parts of a name lead to from a place. -/
def follow (d : Directory) (place : Place) (parts : List String) : Except FileError Place :=
  parts.foldlM d.enter place

/-- The place that a name starts from. -/
def start (name : String) : Except FileError Place :=
  if name.toList.contains '\x00' then .error .nulInName
  else if maxNameBytes < name.utf8ByteSize then .error .nameTooLong
  else .ok (if name.startsWith "/" then ⟨.top, []⟩ else .home)

/-! ### Files -/

/-- The content of a file. A name that ends in a slash is that of a folder. -/
def read (d : Directory) (name : String) : Except FileError Bytes := do
  let place ← d.follow (← start name) (parts name)
  match d.entryAt? place with
  | none => throw .notFound
  | some .folder => throw .isADirectory
  | some (.file bytes) => pure bytes

/-- Writes a file, anew or over an old one. A name that ends in a slash is refused as
that of a folder as soon as the folder around it is known to be there. -/
def write (d : Directory) (name : String) (bytes : Bytes) : Except FileError Directory := do
  let origin ← start name
  if (parts name).getLast? = some "" then
    let around := ((parts name).filter (· != "")).dropLast
    let _ ← d.follow origin (around ++ [""])
    throw .isADirectory
  else
    let place ← d.follow origin (parts name)
    match d.entryAt? place with
    | some .folder => throw .isADirectory
    | _ => pure (d.insert place (.file bytes))

end Directory

end SerialAta
