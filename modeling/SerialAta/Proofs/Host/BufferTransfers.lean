import SerialAta.Proofs.Drive.SectorBuffer
import SerialAta.Proofs.Host.WriteDma
/-!
# SerialAta.Proofs.Host.BufferTransfers

**The sector buffer, from end to end** (`sectorBuffer_transfers`): what the host writes stands at
the front of the buffer, and what it reads is the buffer.

A write takes three frames, and each of them finds the drive as the one before has left it. The
first opens the transfer, and after its announcement everything hangs on the length of the second
(`opened`). If the drive has room for the frame, the words go into the buffer, as many of them as
a sector has, and the report ends the transfer. If it has no room, the host is told so, and the
drive goes on waiting for the words.
-/

namespace SerialAta

/-- The buffer of a reachable host has the words of a sector. -/
theorem Host.Reachable.length_buffer {h : Host} (hr : h.Reachable) :
    h.drive.commands.buffer.length = sectorWords :=
  hr.commands (P := fun c => c.buffer.length = sectorWords) List.length_replicate
    (fun _ hc => hc) fun c disk frame hc => (c.length_buffer_handle disk frame).trans hc

namespace Backdrop

/-- The backdrop while the drive waits for the words of the buffer. -/
def opened (b : Backdrop) : Backdrop :=
  let r : HostRegister := .ofCommand .writeBuffer 0 1
  b.update { b.commands with transfer := .writeBuffer r } b.disk (Fis.hostRegister r).toWords

/-- The backdrop once these words have come. -/
def filled (b : Backdrop) (words : List UInt32) : Backdrop :=
  b.update { transfer := .none, buffer := overlay words b.commands.buffer } b.disk
    (Fis.data words).toWords

end Backdrop

namespace HostM

variable {b : Backdrop} {parameters : LinkParameters} {queue : List Frame} {state : LinkState}

/-! ### FISes of these transfers -/

/-- A FIS that the drive has no room for is refused, and nothing else happens. -/
theorem sendFis_refused (hopen : state = .idle ∨ state = .sendChkRdy ∨ state = .rcvChkRdy)
    (hsteps : 2 ≤ b.limit) {fis : Fis} (hmax : parameters.maxFrameWords < fis.toWords.length) :
    Fails (sendFis fis) (b.Quiet state parameters queue) .rejected
      (b.Quiet .idle parameters queue) :=
  (sendFrame_refused hopen hsteps (by omega)).bind_fails (.throw _ _)

theorem receivePioSetup_does (setup : PioSetup) (hsteps : 7 ≤ b.limit) :
    Does receivePioSetup (b.Quiet .idle parameters ((Fis.pioSetup setup).toWords :: queue)) setup
      (b.Quiet .idle parameters queue) :=
  (receiveFis_does (.inl rfl) (by omega) (.pioSetup setup) hsteps
    (Fis.ofWords_pioSetup setup)).bind (.pure setup _)

/-! ### Writing -/

/-- A write to the buffer is announced, whatever its words are. -/
theorem openBuffer_does (hmax : 5 ≤ parameters.maxFrameWords) (hsteps : 2 ≤ b.limit) :
    Does (sendFis (.hostRegister (.ofCommand .writeBuffer 0 1))) (b.Quiet .idle parameters []) ()
      (b.opened.Quiet .idle parameters [(Fis.pioSetup (.sector false)).toWords]) :=
  sendFis_does (.inl rfl) hsteps (.hostRegister (.ofCommand .writeBuffer 0 1)) hmax
    (CommandLayer.handle_writeBuffer (by decide) rfl)

/-- Words that a data FIS has room for are written, as far as the buffer goes. -/
theorem writeBuffer_complete {words : List UInt32}
    (hmax : maxDataWords + 1 ≤ parameters.maxFrameWords) (hlength : words.length ≤ maxDataWords)
    (hsteps : 7 ≤ b.limit) :
    Does (writeBuffer words) (b.Quiet .idle parameters []) (.complete 0 1)
      ((b.filled words).Quiet .idle parameters []) := by
  have hcommand := openBuffer_does (b := b) (Nat.le_trans (by decide) hmax) (by omega)
  have hsetup := @receivePioSetup_does b.opened parameters [] (.sector false) hsteps
  -- The frame has one word more than it carries.
  have hdata := @sendFis_does b.opened parameters [] .idle (.inl rfl)
    (Nat.le_trans (by decide) hsteps) (.data words) _ _ _
    (Nat.le_trans (Nat.succ_le_succ hlength) hmax)
    (CommandLayer.handle_data_writeBuffer words rfl)
  have hreport := @receiveReport_does (b.filled words) parameters [] (.complete 0 1) (by decide)
    (Nat.le_of_succ_le hsteps)
  exact hcommand.bind (hsetup.bind (hdata.bind hreport))

/-- Words that no data FIS has room for are refused, and the drive goes on waiting for some. -/
theorem writeBuffer_rejected {words : List UInt32} (hpos : 5 ≤ parameters.maxFrameWords)
    (hmax : parameters.maxFrameWords ≤ words.length) (hsteps : 7 ≤ b.limit) :
    Fails (writeBuffer words) (b.Quiet .idle parameters []) .rejected
      (b.opened.Quiet .idle parameters []) := by
  have hcommand := openBuffer_does (b := b) hpos (by omega)
  have hsetup := @receivePioSetup_does b.opened parameters [] (.sector false) hsteps
  have hdata := @sendFis_refused b.opened parameters [] .idle (.inl rfl)
    (Nat.le_trans (by decide) hsteps) (.data words) (Nat.lt_succ_of_le hmax)
  exact hcommand.bind_fails (hsetup.bind_fails hdata.bind)

/-! ### Reading -/

/-- The words of the buffer are read, and nothing changes. -/
theorem readBuffer_does (hmax : 5 ≤ parameters.maxFrameWords)
    (hsteps : b.commands.buffer.length + 3 ≤ b.limit) (hsetup : 7 ≤ b.limit) :
    ∃ last, Does readBuffer (b.Quiet .idle parameters []) b.commands.buffer
      ((b.update b.commands b.disk last).Quiet .idle parameters []) := by
  let r : HostRegister := .ofCommand .readBuffer 0 1
  let b' := b.update b.commands b.disk (Fis.hostRegister r).toWords
  have hcommand := @sendFis_does b parameters [] .idle (.inl rfl) (by omega) (.hostRegister r) _ _ _
    hmax (CommandLayer.handle_readBuffer (by decide) rfl)
  have hannounced := @receivePioSetup_does b' parameters [(Fis.data b.commands.buffer).toWords]
    (.sector true) hsetup
  -- Both answers wait in the queue, and the data are what is left after the announcement.
  have hdata := @receiveFis_does b' parameters [] .idle (.inl rfl) (Nat.le_trans (by decide) hsetup)
    (.data b.commands.buffer) _ hsteps (Fis.ofWords_data b.commands.buffer)
  exact ⟨_, hcommand.bind (hannounced.bind (hdata.bind (.pure _ _)))⟩

end HostM

namespace Host

/-- **Transfers between a host and the sector buffer.** The drive of a reachable host is at rest; it
may be waiting for the data of a write. Words that one data FIS has room for are written: as many
of them as a sector has stand at the front of the buffer then, the words behind them are as they
were, and the drive waits for nothing. If there are more words than that, the host is told that
they are refused. Then the buffer is as it was, and the drive waits for the words of the buffer.
What the host reads is the whole buffer, and neither the buffer nor a transfer that waits for
data is changed by it. In all cases the disk is as it was, and the drive is at rest again. -/
theorem sectorBuffer_transfers {h : Host} (hreach : h.Reachable) (hrest : h.drive.AtRest)
    (hmax : h.drive.link.parameters.maxFrameWords = maxDataWords + 1)
    (hsteps : sectorWords + 3 ≤ h.stepLimit) :
    let buffer := h.drive.commands.buffer
    (∀ words : List UInt32, words.length ≤ maxDataWords →
      let taken := min words.length sectorWords
      ∃ h', (HostM.writeBuffer words).run h = .ok (.complete 0 1) h' ∧
        h'.drive.commands.buffer = words.take taken ++ buffer.drop taken ∧
        h'.drive.commands.buffer.length = sectorWords ∧ h'.drive.isBusy = false ∧
        h'.drive.disk = h.drive.disk ∧ h'.drive.AtRest) ∧
    (∀ words : List UInt32, maxDataWords < words.length →
      ∃ h', (HostM.writeBuffer words).run h = .error .rejected h' ∧
        h'.drive.commands =
          { transfer := .writeBuffer (.ofCommand .writeBuffer 0 1), buffer := buffer } ∧
        h'.drive.isBusy = true ∧ h'.drive.disk = h.drive.disk ∧ h'.drive.AtRest) ∧
    ∃ h', HostM.readBuffer.run h = .ok buffer h' ∧ buffer.length = sectorWords ∧
      h'.drive.commands = h.drive.commands ∧ h'.drive.disk = h.drive.disk ∧
      h'.drive.AtRest := by
  intro buffer
  have hquiet := hreach.quiet hrest
  have hlength : buffer.length = sectorWords := hreach.length_buffer
  have hlimit : 7 ≤ h.stepLimit := Nat.le_trans (by decide) hsteps
  have hroom : 5 ≤ h.drive.link.parameters.maxFrameWords := by
    rw [hmax]
    decide
  refine ⟨fun words hwords => ?_, fun words hwords => ?_, ?_⟩
  · obtain ⟨h', hrun, hquiet'⟩ := HostM.writeBuffer_complete (b := h.backdrop)
      (Nat.le_of_eq hmax.symm) hwords hlimit h hquiet
    obtain ⟨hcommands, hdisk⟩ := hquiet'.behind
    have hbuffer : h'.drive.commands.buffer = overlay words buffer := by
      rw [hcommands]
      rfl
    refine ⟨h', hrun, ?_, ?_, ?_, hdisk, hquiet'.atRest⟩
    · rw [hbuffer, overlay_eq_take_append_drop, hlength]
    · rw [hbuffer, length_overlay, hlength]
    · rw [hquiet'.atRest.isBusy, hcommands]
      rfl
  · have hlong : h.drive.link.parameters.maxFrameWords ≤ words.length := hmax ▸ hwords
    obtain ⟨h', hrun, hquiet'⟩ := HostM.writeBuffer_rejected (b := h.backdrop) hroom hlong hlimit h
      hquiet
    obtain ⟨hcommands, hdisk⟩ := hquiet'.behind
    refine ⟨h', hrun, hcommands, ?_, hdisk, hquiet'.atRest⟩
    rw [hquiet'.atRest.isBusy, hcommands]
    rfl
  · have hread : h.backdrop.commands.buffer.length + 3 ≤ h.backdrop.limit :=
      hlength ▸ hsteps
    obtain ⟨last, hdoes⟩ := HostM.readBuffer_does (b := h.backdrop) hroom hread hlimit
    obtain ⟨h', hrun, hquiet'⟩ := hdoes h hquiet
    obtain ⟨hcommands, hdisk⟩ := hquiet'.behind
    exact ⟨h', hrun, hlength, hcommands, hdisk, hquiet'.atRest⟩

/-- Three words for a drive that has just been brought up, one word more than a data FIS has room
for, and a read. -/
theorem sectorBuffer_transfers_three :
    let new : Host := .new (.new { LinkParameters.standard with alignCount := 1 } (.zeroed 8))
    let h := HostM.awaitIdle.leaves (HostM.bringUp.leaves new)
    h.Reachable ∧ h.drive.AtRest ∧
      (∃ h', (HostM.writeBuffer [7, 8, 9]).run h = .ok (.complete 0 1) h' ∧
        h'.drive.commands.buffer = [7, 8, 9] ++ List.replicate 125 0) ∧
      (∃ h', (HostM.writeBuffer (List.replicate 2049 7)).run h = .error .rejected h' ∧
        h'.drive.isBusy = true) ∧
      ∃ h', HostM.readBuffer.run h = .ok (List.replicate 128 0) h' := by
  intro new h
  have hreach : h.Reachable :=
    .leaves HostM.awaitIdle_steps (.leaves HostM.bringUp_steps (.new _ _))
  have hrest : h.drive.AtRest :=
    ⟨by decide +kernel, by decide +kernel, by decide +kernel⟩
  have hmax : h.drive.link.parameters.maxFrameWords = maxDataWords + 1 := by decide +kernel
  have hsteps : sectorWords + 3 ≤ h.stepLimit := by decide +kernel
  have hbuffer : h.drive.commands.buffer = List.replicate 128 0 := by decide +kernel
  obtain ⟨hshort, hlong, h₃, hread, -⟩ := sectorBuffer_transfers hreach hrest hmax hsteps
  obtain ⟨h₁, hwrite, hwords, -⟩ := hshort [7, 8, 9] (by decide)
  obtain ⟨h₂, hrefused, -, hbusy, -⟩ := hlong (List.replicate 2049 7)
    (by rw [List.length_replicate]; decide)
  rw [hbuffer] at hwords hread
  exact ⟨hreach, hrest, ⟨h₁, hwrite, hwords⟩, ⟨h₂, hrefused, hbusy⟩, h₃, hread⟩

end Host

end SerialAta
