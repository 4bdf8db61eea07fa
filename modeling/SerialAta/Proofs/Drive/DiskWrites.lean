import SerialAta.Drive.CommandLayer
import SerialAta.Proofs.Fis.RoundTrip
/-!
# SerialAta.Proofs.Drive.DiskWrites

**What the command layer does about a write to the disk**, frame by frame.

The command itself opens a transfer if its sectors are on the disk (`handle_writeDma`) and is
refused otherwise (`handle_writeDma_out`). From then on each data FIS puts its words after
those of the ones before it, as far as they are asked for (`handleData_writeDma`). It is answered
by a DMA Activate while words are missing (`handle_data_more`), and by the report with the last
of them (`handle_data_last`).

The disk is described by `Disk.overlaid`, one run of words laid over what was there; runs one
after the other make one run (`overlaid_overlaid`).
-/

namespace SerialAta

/-- Words laid over a store in two runs, one after the other. -/
theorem Store.overlayAt_append {size : Nat} (s : Store size) (start : Nat)
    (us ws : List UInt32) :
    s.overlayAt start (us ++ ws) = (s.overlayAt start us).overlayAt (start + us.length) ws := by
  induction us generalizing s start with
  | nil => rfl
  | cons u us ih =>
      have hlength : start + (u :: us).length = start + 1 + us.length := by
        rw [List.length_cons]
        omega
      rw [List.cons_append, overlayAt, ih, hlength, ← overlayAt]

namespace Disk

/-! ### The disk -/

/-- The disk with its words from `start` on replaced by `values`. -/
def overlaid (d : Disk) (start : Nat) (values : List UInt32) : Disk :=
  { d with words := d.words.overlayAt start values }

theorem overlaid_overlaid (d : Disk) (start : Nat) (us ws : List UInt32) :
    (d.overlaid start us).overlaid (start + us.length) ws = d.overlaid start (us ++ ws) := by
  rw [overlaid, overlaid, overlaid, Store.overlayAt_append]

/-- The words of a disk after a run of words is laid over it. -/
theorem get_overlaid (d : Disk) {start : Nat} {values : List UInt32}
    (h : start + values.length ≤ d.sectors * sectorWords) (i : Nat) :
    (d.overlaid start values).words.get i =
      if start ≤ i ∧ i < start + values.length then values.getD (i - start) 0
      else d.words.get i := by
  refine (Store.get_overlayAt d.words start values i).trans ?_
  simp only [List.getD_eq_getElem?_getD]
  by_cases hi : start ≤ i ∧ i < start + values.length
  · have hlt : i - start < values.length := by omega
    rw [if_pos hi, if_pos ⟨hi.1, by omega⟩, List.getElem?_eq_getElem hlt]
    rfl
  · rw [if_neg hi]
    split
    · rw [List.getElem?_eq_none (by omega)]
      rfl
    · rfl

/-- A run that ends within `count` sectors needs no more than these. -/
theorem reach_le {offset length count : Nat} (hstart : offset < count * sectorWords)
    (hend : offset + length ≤ count * sectorWords) : reach offset length ≤ count := by
  simp only [reach, sectorWords, sectorBytes] at *
  omega

/-- A write within sectors of the disk succeeds. -/
theorem write_of_le {d : Disk} {lba : UInt64} {count offset : Nat} (words : List UInt32)
    (hdisk : lba.toNat + count ≤ d.sectors) (hstart : offset < count * sectorWords)
    (hend : offset + words.length ≤ count * sectorWords) :
    d.write lba offset words =
      (.ok (), d.overlaid (lba.toNat * sectorWords + offset) words) := by
  have hreach := reach_le hstart hend
  have hseek : d.seek lba (reach offset words.length) = .ok lba.toNat := if_pos (by omega)
  rw [write, hseek]
  rfl

end Disk

namespace CommandLayer

variable {c : CommandLayer} {disk : Disk} {r : HostRegister}

/-! ### What a frame is to the command layer -/

theorem handle_of_hostRegister {frame : Frame} (h : Fis.ofWords frame = .ok (.hostRegister r)) :
    c.handle disk frame = ((c.handleCommand disk r).1, (c.handleCommand disk r).2, disk) := by
  rw [handle, h]

theorem handle_of_data {frame : Frame} {payload : List UInt32}
    (h : Fis.ofWords frame = .ok (.data payload)) :
    c.handle disk frame = c.handleData disk payload := by
  rw [handle, h]

/-- What a frame can be: a command, data, or something that is ignored. -/
theorem handle_cases (c : CommandLayer) (disk : Disk) (frame : Frame) :
    (∃ r, Fis.ofWords frame = .ok (.hostRegister r) ∧
      c.handle disk frame = ((c.handleCommand disk r).1, (c.handleCommand disk r).2, disk)) ∨
    (∃ payload, Fis.ofWords frame = .ok (.data payload) ∧
      c.handle disk frame = c.handleData disk payload) ∨
    ((∀ payload, Fis.ofWords frame ≠ .ok (.data payload)) ∧
      c.handle disk frame = ([], c, disk)) := by
  cases h : Fis.ofWords frame with
  | error e => exact .inr (.inr ⟨by simp, by rw [handle, h]⟩)
  | ok fis =>
      cases fis with
      | hostRegister r => exact .inl ⟨r, rfl, handle_of_hostRegister h⟩
      | data payload => exact .inr (.inl ⟨payload, rfl, handle_of_data h⟩)
      | _ => exact .inr (.inr ⟨by simp, by rw [handle, h]⟩)

/-- What a command does to the command layer: a write that can be carried out opens a transfer,
anything else leaves it alone. -/
theorem handleCommand_snd :
    (c.handleCommand disk r).2 =
      if r.command = .writeDma ∧ r.lba.toNat + r.sectorCount ≤ disk.sectors then
        { c with transfer := .writeDma r 0 (r.sectorCount * sectorWords) }
      else if r.command = .writeBuffer then { c with transfer := .writeBuffer r }
      else c := by
  by_cases hdisk : r.lba.toNat + r.sectorCount ≤ disk.sectors
  · cases hr : r.command <;> simp [handleCommand, Disk.read, Disk.seek, hr, hdisk]
  · cases hr : r.command <;> simp [handleCommand, Disk.read, Disk.seek, hr, hdisk]

/-! ### The command -/

theorem handle_hostRegister (hlba : r.lba.toNat < addressLimit)
    (hcommand : Command.ofCode r.command.code = r.command) :
    c.handle disk (Fis.hostRegister r).toWords =
      ((c.handleCommand disk r).1, (c.handleCommand disk r).2, disk) := by
  refine handle_of_hostRegister ?_
  rw [Fis.ofWords_hostRegister, and_addressMask hlba, hcommand]

/-- A write of sectors that the disk has waits for their words. -/
theorem handleCommand_writeDma (hcommand : r.command = .writeDma)
    (hdisk : r.lba.toNat + r.sectorCount ≤ disk.sectors) :
    c.handleCommand disk r =
      ([.dmaActivate], { c with transfer := .writeDma r 0 (r.sectorCount * sectorWords) }) := by
  have hseek : disk.seek r.lba r.sectorCount = .ok r.lba.toNat := if_pos hdisk
  simp only [handleCommand, hcommand, hseek]

theorem handle_writeDma (hlba : r.lba.toNat < addressLimit) (hcommand : r.command = .writeDma)
    (hdisk : r.lba.toNat + r.sectorCount ≤ disk.sectors) :
    c.handle disk (Fis.hostRegister r).toWords =
      ([.dmaActivate],
        { c with transfer := .writeDma r 0 (r.sectorCount * sectorWords) }, disk) := by
  rw [handle_hostRegister hlba (by rw [hcommand]; rfl), handleCommand_writeDma hcommand hdisk]

/-- A write beyond the end of the disk is refused. -/
theorem handle_writeDma_out (hlba : r.lba.toNat < addressLimit) (hcommand : r.command = .writeDma)
    (hdisk : disk.sectors < r.lba.toNat + r.sectorCount) :
    c.handle disk (Fis.hostRegister r).toWords = ([aborted r], c, disk) := by
  have hseek : disk.seek r.lba r.sectorCount =
      .error (.outOfRange r.lba r.sectorCount disk.sectors) := if_neg (by omega)
  rw [handle_hostRegister hlba (by rw [hcommand]; rfl), handleCommand]
  simp only [hcommand, hseek]

/-! ### The data -/

variable {done : Nat} (payload : List UInt32)

/-- Words that come while others are missing. Those that are too many are dropped. -/
theorem handleData_writeDma (hdisk : r.lba.toNat + r.sectorCount ≤ disk.sectors)
    (ht : c.transfer = .writeDma r done (r.sectorCount * sectorWords))
    (hdone : done < r.sectorCount * sectorWords) :
    c.handleData disk payload =
      (if done + payload.length < r.sectorCount * sectorWords then [.dmaActivate]
        else [complete r],
        { c with transfer :=
            if done + payload.length < r.sectorCount * sectorWords then
              .writeDma r (done + payload.length) (r.sectorCount * sectorWords)
            else .none },
        disk.overlaid (r.lba.toNat * sectorWords + done)
          (payload.take (r.sectorCount * sectorWords - done))) := by
  have hend : done + (payload.take (r.sectorCount * sectorWords - done)).length ≤
      r.sectorCount * sectorWords := by
    rw [List.length_take]
    omega
  have hwrite := Disk.write_of_le _ hdisk hdone hend
  rw [handleData]
  simp only [ht, hwrite]
  by_cases hmore : done + payload.length < r.sectorCount * sectorWords
  · have hshort : done + (payload.take (r.sectorCount * sectorWords - done)).length =
        done + payload.length := by
      rw [List.length_take]
      omega
    rw [hshort, if_pos hmore, if_pos hmore, if_pos hmore]
  · have hfull : ¬done + (payload.take (r.sectorCount * sectorWords - done)).length <
        r.sectorCount * sectorWords := by
      rw [List.length_take]
      omega
    rw [if_neg hfull, if_neg hmore, if_neg hmore]

/-- Words that leave others missing. -/
theorem handle_data_more (hdisk : r.lba.toNat + r.sectorCount ≤ disk.sectors)
    (ht : c.transfer = .writeDma r done (r.sectorCount * sectorWords))
    (hmore : done + payload.length < r.sectorCount * sectorWords) :
    c.handle disk (Fis.data payload).toWords =
      ([.dmaActivate],
        { c with transfer := .writeDma r (done + payload.length) (r.sectorCount * sectorWords) },
        disk.overlaid (r.lba.toNat * sectorWords + done) payload) := by
  have htake : payload.take (r.sectorCount * sectorWords - done) = payload :=
    List.take_of_length_le (by omega)
  rw [handle_of_data (Fis.ofWords_data payload), handleData_writeDma payload hdisk ht (by omega),
    if_pos hmore, if_pos hmore, htake]

/-- The words that were missing. -/
theorem handle_data_last (hdisk : r.lba.toNat + r.sectorCount ≤ disk.sectors)
    (ht : c.transfer = .writeDma r done (r.sectorCount * sectorWords))
    (hpos : payload ≠ []) (hlast : done + payload.length = r.sectorCount * sectorWords) :
    c.handle disk (Fis.data payload).toWords =
      ([complete r], { c with transfer := .none },
        disk.overlaid (r.lba.toNat * sectorWords + done) payload) := by
  have hlength := List.length_pos_iff.mpr hpos
  have htake : payload.take (r.sectorCount * sectorWords - done) = payload :=
    List.take_of_length_le (by omega)
  rw [handle_of_data (Fis.ofWords_data payload), handleData_writeDma payload hdisk ht (by omega),
    if_neg (by omega), if_neg (by omega), htake]

end CommandLayer

end SerialAta
