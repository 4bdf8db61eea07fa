import SerialAta.Host.Basic
import SerialAta.Settings.Basic
/-!
# SerialAta.Host.Setup

**Setting up** a simulation: the host with its drive, and the bus memory, that given
settings describe. Where an image is named it has to be there and to fill its disk or
memory. Nobody examines beforehand whether there is room for them (`Settings.Fits`);
without it the run ends here.
-/

namespace SerialAta.Settings

/-- A host connected to the drive with these settings. -/
def host (s : Settings) (dir : Directory) : Except HostError Host :=
  if maxBytes < s.disk.sectors * sectorBytes then .error .capacityOverflow
  else
    let disk := Disk.zeroed s.disk.sectors
    match s.disk.image with
    | none => .ok (.new (.new s.linkParameters disk))
    | some name =>
      match disk.load dir name with
      | (.error cause, _) => .error (.disk cause)
      | (.ok _, disk) => .ok (.new (.new s.linkParameters disk))

/-- The bus memory with these settings, and with the randomness at hand for stalls
without a seed. -/
def busMemory {ρ : Type} [RandomSource ρ] (s : Settings) (entropy : ρ) (dir : Directory) :
    Except HostError (BusMemory (StallSource ρ)) :=
  match BusMemory.ofParameters s.busParameters entropy with
  | .error cause => .error (.memory cause)
  | .ok memory =>
    if maxBytes < 4 * memory.capacity then .error .capacityOverflow
    else
      match s.memory.image with
      | none => .ok memory
      | some name =>
        match memory.load dir name with
        | (.error cause, _) => .error (.memory cause)
        | (.ok _, memory) => .ok memory

end SerialAta.Settings
