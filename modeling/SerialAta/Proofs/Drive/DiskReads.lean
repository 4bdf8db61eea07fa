import SerialAta.Proofs.Drive.DiskWrites
/-!
# SerialAta.Proofs.Drive.DiskReads

**What the command layer does about a read from the disk.** All of it is in the answers: the
words of the sectors, cut into data FISes, and the report after them (`handle_readDma`); or the
report alone, if the disk does not have the sectors (`handle_readDma_out`). Neither the disk
nor a transfer that waits for data has a part in it.
-/

namespace SerialAta

namespace CommandLayer

variable {c : CommandLayer} {disk : Disk} {r : HostRegister}

/-- A read of sectors that the disk has is answered with their words. -/
theorem handle_readDma (hlba : r.lba.toNat < addressLimit) (hcommand : r.command = .readDma)
    (hdisk : r.lba.toNat + r.sectorCount ≤ disk.sectors) :
    c.handle disk (Fis.hostRegister r).toWords =
      ((chunks maxDataWords (disk.words.slice (r.lba.toNat * sectorWords)
        (r.sectorCount * sectorWords))).map .data ++ [complete r], c, disk) := by
  have hseek : disk.seek r.lba r.sectorCount = .ok r.lba.toNat := if_pos hdisk
  rw [handle_hostRegister hlba (by rw [hcommand]; rfl), handleCommand]
  simp only [hcommand, Disk.read, hseek]

/-- A read beyond the end of the disk is refused. -/
theorem handle_readDma_out (hlba : r.lba.toNat < addressLimit) (hcommand : r.command = .readDma)
    (hdisk : disk.sectors < r.lba.toNat + r.sectorCount) :
    c.handle disk (Fis.hostRegister r).toWords = ([aborted r], c, disk) := by
  have hseek : disk.seek r.lba r.sectorCount =
      .error (.outOfRange r.lba r.sectorCount disk.sectors) := if_neg (by omega)
  rw [handle_hostRegister hlba (by rw [hcommand]; rfl), handleCommand]
  simp only [hcommand, Disk.read, hseek]

end CommandLayer

end SerialAta
