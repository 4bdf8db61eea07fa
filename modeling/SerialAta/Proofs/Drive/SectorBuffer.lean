import SerialAta.Proofs.Drive.DiskWrites
/-!
# SerialAta.Proofs.Drive.SectorBuffer

**What the command layer does about the sector buffer**, frame by frame.

A write to the buffer is announced and waits for one data FIS, whatever the transfer before it was
(`handle_writeBuffer`). The words of this FIS replace the first ones of the buffer and end the
transfer (`handle_data_writeBuffer`). A read takes the words out and changes nothing
(`handle_readBuffer`). No frame changes the size of the buffer (`length_buffer_handle`).
-/

namespace SerialAta

/-- As many of the values as there are cells, and the cells that are left. -/
theorem overlay_eq_take_append_drop (values cells : List α) :
    overlay values cells =
      values.take (min values.length cells.length) ++
        cells.drop (min values.length cells.length) := by
  rw [overlay]
  rcases Nat.le_total values.length cells.length with h | h
  · rw [Nat.min_eq_left h, List.take_of_length_le h, List.take_length]
  · rw [Nat.min_eq_right h, List.drop_of_length_le h, List.drop_length]

namespace CommandLayer

variable {c : CommandLayer} {disk : Disk} {r : HostRegister}

/-! ### The commands -/

/-- A write to the buffer waits for its words, in place of any other transfer. -/
theorem handle_writeBuffer (hlba : r.lba.toNat < addressLimit)
    (hcommand : r.command = .writeBuffer) :
    c.handle disk (Fis.hostRegister r).toWords =
      ([.pioSetup (.sector false)], { c with transfer := .writeBuffer r }, disk) := by
  rw [handle_hostRegister hlba (by rw [hcommand]; rfl), handleCommand]
  simp only [hcommand]

/-- A read of the buffer is answered with its words. -/
theorem handle_readBuffer (hlba : r.lba.toNat < addressLimit)
    (hcommand : r.command = .readBuffer) :
    c.handle disk (Fis.hostRegister r).toWords =
      ([.pioSetup (.sector true), .data c.buffer], c, disk) := by
  rw [handle_hostRegister hlba (by rw [hcommand]; rfl), handleCommand]
  simp only [hcommand]

/-- The words of a write to the buffer come all at once. -/
theorem handle_data_writeBuffer (payload : List UInt32) (ht : c.transfer = .writeBuffer r) :
    c.handle disk (Fis.data payload).toWords =
      ([complete r], { transfer := .none, buffer := overlay payload c.buffer }, disk) := by
  rw [handle_of_data (Fis.ofWords_data payload), handleData, ht]

/-! ### The size of the buffer -/

theorem buffer_handleCommand (c : CommandLayer) (disk : Disk) (r : HostRegister) :
    (c.handleCommand disk r).2.buffer = c.buffer := by
  rw [handleCommand_snd]
  split
  · rfl
  · split <;> rfl

theorem length_buffer_handleData (c : CommandLayer) (disk : Disk) (payload : List UInt32) :
    (c.handleData disk payload).2.1.buffer.length = c.buffer.length := by
  cases ht : c.transfer with
  | none => simp only [handleData, ht]
  | writeBuffer r => simp only [handleData, ht, length_overlay]
  | writeDma r done total =>
      simp only [handleData, ht]
      split
      · rfl
      · split <;> rfl

/-- The buffer keeps its size. -/
theorem length_buffer_handle (c : CommandLayer) (disk : Disk) (frame : Frame) :
    (c.handle disk frame).2.1.buffer.length = c.buffer.length := by
  rcases handle_cases c disk frame with ⟨r, -, hrun⟩ | ⟨payload, -, hrun⟩ | ⟨-, hrun⟩
  · rw [hrun, buffer_handleCommand]
  · rw [hrun, length_buffer_handleData]
  · rw [hrun]

end CommandLayer

end SerialAta
