import SerialAta.Proofs.Drive.DiskWrites
import SerialAta.Proofs.Host.Exchange
import SerialAta.Proofs.Host.Reachable
/-!
# SerialAta.Proofs.Host.WriteDma

**Writing sectors, from end to end** (`writeSectors_stores`): the words that the host gives are
on the disk when the command has ended, and everything else is as it was; or the sectors are
not all on the disk, and then nothing has changed.

Host and drive have to agree how many data FISes follow. The host cuts its words into pieces
(`chunks`), the drive counts words, so the induction is on the pieces and its invariant is that
the words left over are the words missing: `done + words.length` is the total of the transfer
(`sendPayloads_does`).
-/

namespace SerialAta

/-! ### The number of sectors -/

/-- A register of eight bits is enough for the sectors of a command. -/
theorem HostRegister.sectorCount_ofCommand {sectors : Nat} (hpos : 1 ≤ sectors)
    (hmax : sectors ≤ 256) (command : Command) (lba : UInt64) :
    (ofCommand command lba sectors.toUInt8).sectorCount = sectors := by
  have hcount : (sectors.toUInt8).toNat = sectors % 256 := UInt8.toNat_ofNat
  unfold sectorCount
  rcases Nat.eq_or_lt_of_le hmax with rfl | hlt
  · rfl
  · have hne : sectors.toUInt8 ≠ 0 := by
      intro h
      rw [h] at hcount
      have hzero : (0 : UInt8).toNat = 0 := rfl
      omega
    refine (if_neg hne).trans ?_
    exact hcount.trans (Nat.mod_eq_of_lt hlt)

namespace Backdrop

/-- The backdrop once a write has ended that has put `words` on the disk from word `start` on. -/
def written (b : Backdrop) (start : Nat) (words : List UInt32) (last : Frame) : Backdrop :=
  b.update { b.commands with transfer := .none } (b.disk.overlaid start words) last

end Backdrop

namespace HostM

variable {b : Backdrop} {parameters : LinkParameters} {queue : List Frame}

/-! ### The report -/

theorem receiveFis_report {report : DeviceRegister} (hlba : report.lba.toNat < addressLimit)
    (hsteps : 6 ≤ b.limit) :
    Does receiveFis (b.Quiet .idle parameters ((Fis.deviceRegister report).toWords :: queue))
      (.deviceRegister report) (b.Quiet .idle parameters queue) := by
  refine receiveFis_does (.inl rfl) (by omega) (.deviceRegister report) hsteps ?_
  rw [Fis.ofWords_deviceRegister, and_addressMask hlba]

theorem receiveReport_does {report : DeviceRegister} (hlba : report.lba.toNat < addressLimit)
    (hsteps : 6 ≤ b.limit) :
    Does receiveReport (b.Quiet .idle parameters ((Fis.deviceRegister report).toWords :: queue))
      report (b.Quiet .idle parameters queue) :=
  (receiveFis_report hlba hsteps).bind (.pure report _)

/-- A report ends the command, whether there are payloads left or not. -/
theorem sendPayloads_report {report : DeviceRegister} (hlba : report.lba.toNat < addressLimit)
    (hsteps : 6 ≤ b.limit) (payloads : List (List UInt32)) :
    Does (sendPayloads payloads)
      (b.Quiet .idle parameters ((Fis.deviceRegister report).toWords :: queue)) report
      (b.Quiet .idle parameters queue) := by
  cases payloads with
  | nil => exact receiveReport_does hlba hsteps
  | cons => exact (receiveFis_report hlba hsteps).bind (.pure report _)

/-! ### The data -/

variable {r : HostRegister}

/-- A payload is sent when the drive asks for it. -/
theorem sendPayloads_cons {payload : List UInt32} {payloads : List (List UInt32)}
    {report : DeviceRegister} {Q : Host → Prop} {replies : List Fis} {commands : CommandLayer}
    {disk : Disk} (hlength : payload.length + 1 ≤ parameters.maxFrameWords) (hsteps : 3 ≤ b.limit)
    (hhandle : b.commands.handle b.disk (Fis.data payload).toWords = (replies, commands, disk))
    (hrest : Does (sendPayloads payloads)
      ((b.update commands disk (Fis.data payload).toWords).Quiet .idle parameters
        (replies.map Fis.toWords)) report Q) :
    Does (sendPayloads (payload :: payloads))
      (b.Quiet .idle parameters [Fis.dmaActivate.toWords]) report Q := by
  have hask := @receiveFis_does b parameters [] .idle (.inl rfl) (by omega) .dmaActivate _ hsteps
    Fis.ofWords_dmaActivate
  exact hask.bind ((sendFis_does (.inl rfl) (by omega) (.data payload) hlength hhandle).bind hrest)

/-- The words of a write, piece by piece, up to the report. -/
theorem sendPayloads_does {words : List UInt32} (hne : words ≠ []) {done : Nat}
    (hlba : r.lba.toNat < addressLimit) (hdisk : r.lba.toNat + r.sectorCount ≤ b.disk.sectors)
    (ht : b.commands.transfer = .writeDma r done (r.sectorCount * sectorWords))
    (hwords : done + words.length = r.sectorCount * sectorWords)
    (hmax : maxDataWords + 1 ≤ parameters.maxFrameWords) (hsteps : 6 ≤ b.limit) :
    ∃ last, Does (sendPayloads (chunks maxDataWords words))
      (b.Quiet .idle parameters [Fis.dmaActivate.toWords])
      (.complete r.lba r.sectorCount.toUInt16)
      ((b.written (r.lba.toNat * sectorWords + done) words last).Quiet .idle parameters []) := by
  fun_induction chunks maxDataWords words generalizing b done with
  | case1 words h => exact absurd (h.resolve_left (by decide)) hne
  | case2 words h ih =>
      have hcut : (words.take maxDataWords).length ≤ maxDataWords := List.length_take_le ..
      have hparts := List.take_append_drop maxDataWords words
      by_cases hlast : words.drop maxDataWords = []
      · -- The last piece: the report comes where another DMA Activate would.
        rw [hlast, List.append_nil] at hparts
        rw [hparts] at hcut
        have hhandle := CommandLayer.handle_data_last words hdisk ht hne hwords
        rw [hparts, hlast, chunks_nil]
        refine ⟨(Fis.data words).toWords,
          sendPayloads_cons (by omega) (by omega) hhandle (sendPayloads_report ?_ ?_ [])⟩
        · exact hlba
        · exact hsteps
      · -- Any other piece leaves the drive with a transfer that has come further.
        have hsum := congrArg List.length hparts
        rw [List.length_append] at hsum
        have hpos := List.length_pos_iff.mpr hlast
        have hhandle :=
          CommandLayer.handle_data_more (words.take maxDataWords) hdisk ht (by omega)
        let b' := b.update
          { b.commands with
            transfer := .writeDma r (done + (words.take maxDataWords).length)
              (r.sectorCount * sectorWords) }
          (b.disk.overlaid (r.lba.toNat * sectorWords + done) (words.take maxDataWords))
          (Fis.data (words.take maxDataWords)).toWords
        obtain ⟨last, hrest⟩ := ih (b := b') hlast hdisk rfl (by omega) hsteps
        -- The words of this piece and those after it are the words of the whole.
        have hwhole := Disk.overlaid_overlaid b.disk (r.lba.toNat * sectorWords + done)
          (words.take maxDataWords) (words.drop maxDataWords)
        rw [hparts, Nat.add_assoc] at hwhole
        have hwritten : b'.written
            (r.lba.toNat * sectorWords + (done + (words.take maxDataWords).length))
            (words.drop maxDataWords) last =
            b.written (r.lba.toNat * sectorWords + done) words last := by
          rw [Backdrop.written, Backdrop.written, ← hwhole]
          rfl
        rw [hwritten] at hrest
        exact ⟨last, sendPayloads_cons (by omega) (by omega) hhandle hrest⟩

/-! ### The command -/

section Command

variable {lba : UInt64} {sectors : Nat} {words : List UInt32}

/-- The command is sent, and the words as the drive asks for them. -/
theorem writeSectors_of_rest (hlength : words.length = sectors * sectorWords)
    {replies : List Fis} {commands : CommandLayer} {disk : Disk} {report : DeviceRegister}
    {Q : Host → Prop} (hmax : 5 ≤ parameters.maxFrameWords) (hsteps : 2 ≤ b.limit)
    (hr : r = .ofCommand .writeDma lba sectors.toUInt8)
    (hhandle : b.commands.handle b.disk (Fis.hostRegister r).toWords = (replies, commands, disk))
    (hrest : Does (sendPayloads (chunks maxDataWords words))
      ((b.update commands disk (Fis.hostRegister r).toWords).Quiet .idle parameters
        (replies.map Fis.toWords)) report Q) :
    Does (writeSectors lba words) (b.Quiet .idle parameters []) report Q := by
  have hcount : words.length / sectorWords = sectors := by
    rw [hlength]
    exact Nat.mul_div_cancel sectors (by decide)
  rw [writeSectors, hcount, ← hr]
  exact (sendFis_does (.inl rfl) hsteps (.hostRegister r) hmax hhandle).bind hrest

/-- Sectors that the disk has are written. -/
theorem writeSectors_complete (hpos : 1 ≤ sectors) (hsectors : sectors ≤ 256)
    (hlength : words.length = sectors * sectorWords) (hlba : lba.toNat < addressLimit)
    (hdisk : lba.toNat + sectors ≤ b.disk.sectors)
    (hmax : maxDataWords + 1 ≤ parameters.maxFrameWords) (hsteps : 6 ≤ b.limit) :
    ∃ last, Does (writeSectors lba words) (b.Quiet .idle parameters [])
      (.complete lba sectors.toUInt16)
      ((b.written (lba.toNat * sectorWords) words last).Quiet .idle parameters []) := by
  let r : HostRegister := .ofCommand .writeDma lba sectors.toUInt8
  have hcount : r.sectorCount = sectors :=
    HostRegister.sectorCount_ofCommand hpos hsectors .writeDma lba
  have hne : words ≠ [] := by
    refine List.ne_nil_of_length_pos ?_
    rw [hlength]
    exact Nat.mul_pos hpos (by decide)
  have hdisk' : r.lba.toNat + r.sectorCount ≤ b.disk.sectors := by
    rw [hcount]
    exact hdisk
  have hhandle := CommandLayer.handle_writeDma (c := b.commands) (r := r) hlba rfl hdisk'
  let b' := b.update
    { b.commands with transfer := .writeDma r 0 (r.sectorCount * sectorWords) } b.disk
    (Fis.hostRegister r).toWords
  obtain ⟨last, hdata⟩ := sendPayloads_does (b := b') (r := r) hne hlba hdisk' rfl
    (by rw [hcount, hlength]; omega) hmax hsteps
  rw [hcount] at hdata
  exact ⟨last, writeSectors_of_rest hlength (Nat.le_trans (by decide) hmax) (by omega) rfl hhandle
    hdata⟩

/-- A write beyond the end of the disk is refused. -/
theorem writeSectors_aborted (hpos : 1 ≤ sectors) (hsectors : sectors ≤ 256)
    (hlength : words.length = sectors * sectorWords) (hlba : lba.toNat < addressLimit)
    (hdisk : b.disk.sectors < lba.toNat + sectors)
    (hmax : maxDataWords + 1 ≤ parameters.maxFrameWords) (hsteps : 6 ≤ b.limit) :
    ∃ last, Does (writeSectors lba words) (b.Quiet .idle parameters [])
      (.aborted lba sectors.toUInt16)
      ((b.update b.commands b.disk last).Quiet .idle parameters []) := by
  let r : HostRegister := .ofCommand .writeDma lba sectors.toUInt8
  have hcount : r.sectorCount = sectors :=
    HostRegister.sectorCount_ofCommand hpos hsectors .writeDma lba
  have hreport : CommandLayer.aborted r = .deviceRegister (.aborted lba sectors.toUInt16) := by
    rw [CommandLayer.aborted, hcount]
    rfl
  rw [← hcount] at hdisk
  have hhandle := CommandLayer.handle_writeDma_out (c := b.commands) (r := r) hlba rfl hdisk
  rw [hreport] at hhandle
  refine ⟨(Fis.hostRegister r).toWords,
    writeSectors_of_rest hlength (Nat.le_trans (by decide) hmax) (by omega) rfl hhandle ?_⟩
  refine sendPayloads_report ?_ ?_ _
  · exact hlba
  · exact hsteps

end Command

end HostM

namespace Host

/-- **A write of sectors stores its words, or changes nothing.** The drive of a reachable host is
at rest and waits for no data. If the disk has the sectors, they hold the given words after the
write, and everything else on the disk is as it was. Otherwise the write is refused and the disk
is as it was. Either way the sector buffer is as it was and the drive is at rest again. -/
theorem writeSectors_stores {h : Host} (hreach : h.Reachable) (hrest : h.drive.AtRest)
    (hbusy : h.drive.isBusy = false)
    (hmax : maxDataWords + 1 ≤ h.drive.link.parameters.maxFrameWords) (hsteps : 6 ≤ h.stepLimit)
    {lba : UInt64} (hlba : lba.toNat < addressLimit) {sectors : Nat} (hpos : 1 ≤ sectors)
    (hsectors : sectors ≤ 256) {words : List UInt32}
    (hlength : words.length = sectors * sectorWords) :
    let start := lba.toNat * sectorWords
    ∃ report h', (HostM.writeSectors lba words).run h = .ok report h' ∧
      (lba.toNat + sectors ≤ h.drive.disk.sectors →
        report = .complete lba sectors.toUInt16 ∧
        h'.drive.disk.sectors = h.drive.disk.sectors ∧
        ∀ i, h'.drive.disk.words.get i =
          if start ≤ i ∧ i < start + words.length then words.getD (i - start) 0
          else h.drive.disk.words.get i) ∧
      (h.drive.disk.sectors < lba.toNat + sectors →
        report = .aborted lba sectors.toUInt16 ∧ h'.drive.disk = h.drive.disk) ∧
      h'.drive.commands.buffer = h.drive.commands.buffer ∧
      h'.drive.AtRest ∧ h'.drive.isBusy = false := by
  intro start
  have hquiet := hreach.quiet hrest
  rw [hrest.isBusy] at hbusy
  rcases Nat.lt_or_ge h.drive.disk.sectors (lba.toNat + sectors) with hout | hin
  · obtain ⟨last, hdoes⟩ :=
      HostM.writeSectors_aborted (b := h.backdrop) hpos hsectors hlength hlba hout hmax hsteps
    obtain ⟨h', hrun, hquiet'⟩ := hdoes h hquiet
    obtain ⟨hcommands, hdisk⟩ := hquiet'.behind
    refine ⟨_, h', hrun, fun hin => by omega, fun _ => ⟨rfl, hdisk⟩, ?_, hquiet'.atRest, ?_⟩
    · rw [hcommands]
      rfl
    · rw [hquiet'.atRest.isBusy, hcommands]
      exact hbusy
  · obtain ⟨last, hdoes⟩ :=
      HostM.writeSectors_complete (b := h.backdrop) hpos hsectors hlength hlba hin hmax hsteps
    obtain ⟨h', hrun, hquiet'⟩ := hdoes h hquiet
    obtain ⟨hcommands, hdisk⟩ := hquiet'.behind
    have hend : start + words.length ≤ h.drive.disk.sectors * sectorWords := by
      rw [hlength, ← Nat.add_mul]
      exact Nat.mul_le_mul_right _ hin
    refine ⟨_, h', hrun, fun _ => ⟨rfl, ?_, ?_⟩, fun hout => by omega, ?_, hquiet'.atRest, ?_⟩
    · rw [hdisk]
      rfl
    · rw [hdisk]
      exact Disk.get_overlaid h.drive.disk hend
    · rw [hcommands]
      rfl
    · rw [hquiet'.atRest.isBusy, hcommands]
      rfl

/-- One sector, written to a drive that has just been brought up. -/
theorem writeSectors_stores_one :
    let new : Host := .new (.new { LinkParameters.standard with alignCount := 1 } (.zeroed 8))
    let h := HostM.awaitIdle.leaves (HostM.bringUp.leaves new)
    h.Reachable ∧ h.drive.AtRest ∧ h.drive.isBusy = false ∧
      ∃ report h', (HostM.writeSectors 3 (List.replicate 128 7)).run h = .ok report h' ∧
        report = .complete 3 1 ∧ h'.drive.disk.words.get 384 = 7 := by
  intro new h
  have hreach : h.Reachable :=
    .leaves HostM.awaitIdle_steps (.leaves HostM.bringUp_steps (.new _ _))
  have hrest : h.drive.AtRest :=
    ⟨by decide +kernel, by decide +kernel, by decide +kernel⟩
  have hbusy : h.drive.isBusy = false := by decide +kernel
  have hmax : maxDataWords + 1 ≤ h.drive.link.parameters.maxFrameWords := by decide +kernel
  have hsteps : 6 ≤ h.stepLimit := by decide +kernel
  have hlength : (List.replicate 128 (7 : UInt32)).length = 1 * sectorWords :=
    List.length_replicate
  obtain ⟨report, h', hrun, hin, -⟩ := @writeSectors_stores h hreach hrest hbusy hmax hsteps 3
    (by decide) 1 (by decide) (by decide) _ hlength
  obtain ⟨hreport, -, hwords⟩ := hin (by decide +kernel)
  refine ⟨hreach, hrest, hbusy, report, h', hrun, hreport, ?_⟩
  rw [hwords]
  decide +kernel

end Host

end SerialAta
