import SerialAta.Settings.Basic
/-!
# SerialAta.Settings.Load

**Loading settings**: a text is read, and what it says is examined for defects
(`Settings.defect?`).

How a text is read is left to a reader, which gives the settings or, if the text says
none, nothing. `SerialAta.Settings.Fields` has one for TOML.
-/

namespace SerialAta

/-- Why settings cannot be loaded. -/
inductive SettingsError
  /-- The file cannot be read. -/
  | unreadable (cause : FileError)
  /-- The file is not UTF-8 text. -/
  | notText
  /-- The reader finds no settings in the text. -/
  | malformed
  /-- A setting makes no sense. -/
  | defective (defect : Settings.Defect)
  deriving DecidableEq, Repr

/-- The wording of a loading error; what is wrong with malformed text is not
said. -/
def SettingsError.message : SettingsError → String
  | unreadable cause => "failed to read configuration: " ++ cause.message
  | notText => "failed to read configuration: stream did not contain valid UTF-8"
  | malformed => "failed to parse configuration"
  | defective defect => "validation error: " ++ defect.message

namespace Settings

/-- The settings that a text gives. -/
def ofText (read : String → Option Settings) (text : String) : Except SettingsError Settings :=
  match read text with
  | none => .error .malformed
  | some s =>
    match s.defect? with
    | some defect => .error (.defective defect)
    | none => .ok s

/-- The name of the file with the settings of a directory. -/
def fileName : String := "satasim.toml"

/-- The settings of a directory. Names of images are taken as seen from it. -/
def load (read : String → Option Settings) (dir : Directory) : Except SettingsError Settings :=
  match dir.read fileName with
  | .error cause => .error (.unreadable cause)
  | .ok bytes =>
    match String.fromUTF8? ⟨bytes⟩ with
    | none => .error .notText
    | some text => ofText read text

end Settings

end SerialAta
