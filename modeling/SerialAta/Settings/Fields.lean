import SerialAta.Settings.Basic
import SerialAta.Toml.Reader
/-!
# SerialAta.Settings.Fields

**Settings in TOML**: the reader that settings are loaded with (`Settings.ofToml?`).

A section is a table with the names of its settings as keys, or an array with their
values in order; what an array has beyond them is ignored, while a key that is no setting
is an error. Types must fit, and integers lie in the range of their setting.
-/

namespace SerialAta

namespace Settings

/-- A setting: its key, and how its value changes the settings it belongs to. -/
structure Field (α : Type) where
  /-- The key. -/
  key : String
  /-- The settings after the value is set, if it is a value for this setting. -/
  set : α → Toml.Value → Option α

/-- Sets the settings that a list of keys and values names. -/
def ofEntries (fields : List (Field α)) (defaults : α) (entries : Toml.Table) : Option α :=
  entries.foldlM
    (fun s (key, v) =>
      match fields.find? fun f => f.key == key with
      | some f => f.set s v
      | none => none)
    defaults

/-- Sets settings in order, as long as there are values. -/
def ofElements (fields : List (Field α)) (defaults : α) (vs : List Toml.Value) : Option α :=
  (fields.zip vs).foldlM (fun s (f, v) => f.set s v) defaults

/-- The settings of a section, by key or in order. -/
def ofSection (fields : List (Field α)) (defaults : α) : Toml.Value → Option α
  | .table _ entries => ofEntries fields defaults entries
  | .array vs => ofElements fields defaults vs
  | .tableArray latestFirst =>
    ofElements fields defaults (latestFirst.reverse.map (.table .header))
  | _ => none

/-- An integer from zero up to, but not including, `bound`. -/
def natBelow (bound : Nat) : Toml.Value → Option Nat
  | .integer n => if 0 ≤ n ∧ n < bound then some n.toNat else none
  | _ => none

/-- A value of 32 bits. -/
def word32 (v : Toml.Value) : Option UInt32 := (natBelow UInt32.size v).map Nat.toUInt32

/-- A size, of 64 bits. -/
def size (v : Toml.Value) : Option Nat := natBelow UInt64.size v

/-- A value of 64 bits. -/
def word64 (v : Toml.Value) : Option UInt64 := (natBelow UInt64.size v).map Nat.toUInt64

/-- A name. -/
def name : Toml.Value → Option String
  | .string text => some text
  | _ => none

/-- The settings of the link, in order. -/
def linkFields : List (Field LinkSettings) :=
  [ ⟨"align_count", fun s v => do return { s with alignCount := ← word32 v }⟩,
    ⟨"comreset_idle_steps", fun s v => do return { s with comresetIdleSteps := ← word32 v }⟩ ]

/-- The settings of the memory, in order. -/
def memoryFields : List (Field MemorySettings) :=
  [ ⟨"words", fun s v => do return { s with words := ← size v }⟩,
    ⟨"delay", fun s v => do return { s with delay := ← word32 v }⟩,
    ⟨"stall_one_in", fun s v => do return { s with stallOneIn := ← word32 v }⟩,
    ⟨"seed", fun s v => do return { s with seed := some (← word64 v) }⟩,
    ⟨"words_per_beat", fun s v => do return { s with wordsPerBeat := ← word32 v }⟩,
    ⟨"image", fun s v => do return { s with image := some (← name v) }⟩ ]

/-- The settings of the disk, in order. -/
def diskFields : List (Field DiskSettings) :=
  [ ⟨"sectors", fun s v => do return { s with sectors := ← size v }⟩,
    ⟨"image", fun s v => do return { s with image := some (← name v) }⟩ ]

/-- The sections. -/
def sections : List (Field Settings) :=
  [ ⟨"link", fun s v => do return { s with link := ← ofSection linkFields s.link v }⟩,
    ⟨"memory", fun s v => do return { s with memory := ← ofSection memoryFields s.memory v }⟩,
    ⟨"disk", fun s v => do return { s with disk := ← ofSection diskFields s.disk v }⟩ ]

/-- The settings of a TOML text: those that it does not give have their defaults. -/
def ofToml? (text : String) : Option Settings :=
  (Toml.read? text).bind (ofEntries sections standard)

end Settings

end SerialAta
