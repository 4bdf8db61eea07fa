import SerialAta.Proofs.Host.ReadDma
/-!
# SerialAta.Proofs.Host.CommandRegisters

**What the registers of a command hold**, at the ends of their ranges.

A host asks for sectors by an address of 64 bits and a number. The registers that carry them to the
drive are narrower. The address has 48 bits, so a transfer goes where the low 48 bits of its address
point to, and it is refused just if the disk does not have the sectors there
(`Host.refused_beyond_disk`). The number has eight bits, in which zero stands for 256. That is right
for 256 sectors, but a write of no sectors at all asks the drive for 256 and has no words to follow:
if the disk has the sectors, the drive is left waiting (`Host.writeSectors_leaves_waiting_iff`).
-/

namespace SerialAta

/-! ### Reports -/

@[simp] theorem DeviceRegister.isError_aborted (lba : UInt64) (count : UInt16) :
    (aborted lba count).isError = true := by
  simp only [isError, aborted]
  decide

@[simp] theorem DeviceRegister.isError_complete (lba : UInt64) (count : UInt16) :
    (complete lba count).isError = false := by
  simp only [isError, complete]
  decide

/-! ### The address -/

/-- The upper half of what a register holds of an address. -/
theorem and_addressMask_shiftRight (lba : UInt64) :
    (lba &&& addressMask) >>> 24 = (lba >>> 24) &&& 0xFFFFFF := by
  refine UInt64.toNat_inj.mp ?_
  have hhalf : ∀ w : UInt64, (w >>> 24).toNat = w.toNat / 0x1000000 := fun w =>
    (UInt64.toNat_shiftRight w 24).trans (Nat.shiftRight_eq_div_pow ..)
  rw [hhalf, toNat_and_addressMask, toNat_and_low, hhalf, addressLimit]
  omega

/-- The layout of a command is that of its address without the upper sixteen bits. -/
theorem HostRegister.toWords_and_addressMask (r : HostRegister) :
    HostRegister.toWords { r with lba := r.lba &&& addressMask } = r.toWords := by
  have hlow : r.lba &&& addressMask &&& 0xFFFFFF = r.lba &&& 0xFFFFFF := UInt64.and_assoc ..
  have hhigh : ∀ w : UInt64, w &&& 0xFFFFFF &&& 0xFFFFFF = w &&& 0xFFFFFF := fun _ =>
    UInt64.and_assoc ..
  have hnibble : ∀ w : UInt64, w &&& 0xFFFFFF &&& 0x0F = w &&& 0x0F := fun _ =>
    UInt64.and_assoc ..
  simp only [toWords, and_addressMask_shiftRight, hlow, hhigh, hnibble]

namespace HostM

/-- Commands are known to the drive by their words. -/
theorem sendFis_and_addressMask (command : Command) (lba : UInt64) (count : UInt8) :
    sendFis (.hostRegister (.ofCommand command (lba &&& addressMask) count)) =
      sendFis (.hostRegister (.ofCommand command lba count)) := by
  have hwords : (Fis.hostRegister (.ofCommand command (lba &&& addressMask) count)).toWords =
      (Fis.hostRegister (.ofCommand command lba count)).toWords :=
    HostRegister.toWords_and_addressMask (.ofCommand command lba count)
  rw [sendFis, sendFis, hwords]

theorem writeSectors_and_addressMask (lba : UInt64) (words : List UInt32) :
    writeSectors (lba &&& addressMask) words = writeSectors lba words := by
  rw [writeSectors, writeSectors, sendFis_and_addressMask]

theorem readSectors_and_addressMask (lba : UInt64) (count : UInt8) :
    readSectors (lba &&& addressMask) count = readSectors lba count := by
  rw [readSectors, readSectors, sendFis_and_addressMask]

/-! ### What a write leaves behind -/

section Writes

variable {b : Backdrop} {parameters : LinkParameters} {lba : UInt64} {sectors : Nat}
  {words : List UInt32}

/-- A write of some sectors comes to a report, which tells whether the disk has them all. -/
theorem writeSectors_judged (hlba : lba.toNat < addressLimit) (hpos : 1 ≤ sectors)
    (hsectors : sectors ≤ 256) (hlength : words.length = sectors * sectorWords)
    (hmax : maxDataWords + 1 ≤ parameters.maxFrameWords) (hsteps : 6 ≤ b.limit) :
    ∃ report commands disk last, Does (writeSectors lba words) (b.Quiet .idle parameters []) report
        ((b.update commands disk last).Quiet .idle parameters []) ∧
      (b.commands.isBusy = false → commands.isBusy = false) ∧
      (b.disk.sectors < lba.toNat + sectors → report.isError = true ∧ disk = b.disk) ∧
      (lba.toNat + sectors ≤ b.disk.sectors → report.isError = false ∧
        disk = b.disk.overlaid (lba.toNat * sectorWords) words) := by
  rcases Nat.lt_or_ge b.disk.sectors (lba.toNat + sectors) with hout | hin
  · obtain ⟨last, hdoes⟩ := writeSectors_aborted hpos hsectors hlength hlba hout hmax hsteps
    exact ⟨_, _, _, last, hdoes, id, fun _ => ⟨DeviceRegister.isError_aborted .., rfl⟩,
      fun hin => absurd hout (Nat.not_lt.mpr hin)⟩
  · obtain ⟨last, hdoes⟩ := writeSectors_complete hpos hsectors hlength hlba hin hmax hsteps
    exact ⟨_, _, _, last, hdoes, fun _ => rfl, fun hout => absurd hout (Nat.not_lt.mpr hin),
      fun _ => ⟨DeviceRegister.isError_complete .., rfl⟩⟩

/-- The drive asks for the words of 256 sectors, and the host has none to send. -/
theorem writeSectors_nothing_fails (hlba : lba.toNat < addressLimit)
    (hdisk : lba.toNat + 256 ≤ b.disk.sectors) (hmax : 5 ≤ parameters.maxFrameWords)
    (hsteps : 3 ≤ b.limit) :
    ∃ last, Fails (writeSectors lba []) (b.Quiet .idle parameters [])
      (.unexpectedFis .deviceRegister Fis.dmaActivate.typeByte)
      ((b.update
          { b.commands with
            transfer := .writeDma (.ofCommand .writeDma lba 0) 0 (256 * sectorWords) }
          b.disk last).Quiet .idle parameters []) := by
  let r : HostRegister := .ofCommand .writeDma lba 0
  let opened := b.update
    { b.commands with transfer := .writeDma r 0 (r.sectorCount * sectorWords) } b.disk
    (Fis.hostRegister r).toWords
  have hcommand := @sendFis_does b parameters [] .idle (.inl rfl) (by omega) (.hostRegister r) _ _ _
    hmax (CommandLayer.handle_writeDma hlba rfl hdisk)
  have hask := @receiveFis_does opened parameters [] .idle (.inl rfl)
    (Nat.le_trans (by decide) hsteps) .dmaActivate _ hsteps Fis.ofWords_dmaActivate
  have hreport : Fails (sendPayloads (chunks maxDataWords []))
      (opened.Quiet .idle parameters [Fis.dmaActivate.toWords])
      (.unexpectedFis .deviceRegister Fis.dmaActivate.typeByte)
      (opened.Quiet .idle parameters []) := by
    rw [chunks_nil]
    exact hask.bind_fails (.throw _ _)
  exact ⟨_, hcommand.bind_fails hreport⟩

/-- If the disk does not have 256 sectors there, the write is refused. -/
theorem writeSectors_nothing_aborted (hlba : lba.toNat < addressLimit)
    (hdisk : b.disk.sectors < lba.toNat + 256) (hmax : 5 ≤ parameters.maxFrameWords)
    (hsteps : 6 ≤ b.limit) :
    ∃ last, Does (writeSectors lba []) (b.Quiet .idle parameters []) (.aborted lba 256)
      ((b.update b.commands b.disk last).Quiet .idle parameters []) := by
  let r : HostRegister := .ofCommand .writeDma lba 0
  have hhandle := CommandLayer.handle_writeDma_out (c := b.commands) (r := r) hlba rfl hdisk
  have hreport : Does (sendPayloads (chunks maxDataWords []))
      ((b.update b.commands b.disk (Fis.hostRegister r).toWords).Quiet .idle parameters
        [(Fis.deviceRegister (.aborted lba 256)).toWords])
      (.aborted lba 256)
      ((b.update b.commands b.disk (Fis.hostRegister r).toWords).Quiet .idle parameters []) := by
    refine sendPayloads_report ?_ ?_ _
    · exact hlba
    · exact hsteps
  have hlength : ([] : List UInt32).length = 0 * sectorWords := rfl
  exact ⟨_, writeSectors_of_rest hlength hmax (by omega) rfl hhandle hreport⟩

/-- Any other write comes to its report, and the drive waits for nothing. -/
theorem writeSectors_reports (hbusy : b.commands.isBusy = false) (hlba : lba.toNat < addressLimit)
    (hsectors : sectors ≤ 256) (hlength : words.length = sectors * sectorWords)
    (hother : ¬(sectors = 0 ∧ lba.toNat + 256 ≤ b.disk.sectors))
    (hmax : maxDataWords + 1 ≤ parameters.maxFrameWords) (hsteps : 6 ≤ b.limit) :
    ∃ report commands disk last, Does (writeSectors lba words) (b.Quiet .idle parameters []) report
        ((b.update commands disk last).Quiet .idle parameters []) ∧
      commands.isBusy = false ∧ disk.sectors = b.disk.sectors ∧
      ∀ i, i < lba.toNat * sectorWords ∨ lba.toNat * sectorWords + words.length ≤ i →
        disk.words.get i = b.disk.words.get i := by
  rcases Nat.eq_zero_or_pos sectors with rfl | hpos
  · obtain rfl : words = [] := List.eq_nil_of_length_eq_zero (hlength.trans (Nat.zero_mul _))
    obtain ⟨last, hdoes⟩ := @writeSectors_nothing_aborted b parameters lba hlba
      (by omega) (Nat.le_trans (by decide) hmax) hsteps
    exact ⟨_, _, _, last, hdoes, hbusy, rfl, fun _ _ => rfl⟩
  obtain ⟨report, commands, disk, last, hdoes, hdone, hrefused, hcarried⟩ :=
    writeSectors_judged hlba hpos hsectors hlength hmax hsteps
  refine ⟨report, commands, disk, last, hdoes, hdone hbusy, ?_⟩
  rcases Nat.lt_or_ge b.disk.sectors (lba.toNat + sectors) with hout | hin
  · rw [(hrefused hout).2]
    exact ⟨rfl, fun _ _ => rfl⟩
  · rw [(hcarried hin).2]
    refine ⟨rfl, fun i hi => ?_⟩
    have hend : lba.toNat * sectorWords + words.length ≤ b.disk.sectors * sectorWords := by
      rw [hlength, ← Nat.add_mul]
      exact Nat.mul_le_mul_right _ hin
    rw [Disk.get_overlaid b.disk hend, if_neg (by omega)]

end Writes

end HostM

namespace Host

/-- **A write leaves the drive waiting for words just if it has none.** The drive of a reachable
host is at rest and waits for no data. After a write of up to 256 whole sectors it is at rest
again, and waits for data exactly if there were no sectors and the disk has 256 from the address
on: the host has failed over the DMA Activate that came in place of a report, and the drive waits
for all the words of 256 sectors. Whatever came of the write, no word of the disk has changed but
those that were to be written. -/
theorem writeSectors_leaves_waiting_iff {h : Host} (hreach : h.Reachable) (hrest : h.drive.AtRest)
    (hbusy : h.drive.isBusy = false)
    (hmax : maxDataWords + 1 ≤ h.drive.link.parameters.maxFrameWords) (hsteps : 6 ≤ h.stepLimit)
    {lba : UInt64} (hlba : lba.toNat < addressLimit) {sectors : Nat} (hsectors : sectors ≤ 256)
    {words : List UInt32} (hlength : words.length = sectors * sectorWords) :
    let start := lba.toNat * sectorWords
    let h' := (HostM.writeSectors lba words).leaves h
    (h'.drive.isBusy = true ↔ sectors = 0 ∧ lba.toNat + 256 ≤ h.drive.disk.sectors) ∧
    (h'.drive.isBusy = true →
      (HostM.writeSectors lba words).run h =
        .error (.unexpectedFis .deviceRegister Fis.dmaActivate.typeByte) h' ∧
      h'.drive.commands.transfer = .writeDma (.ofCommand .writeDma lba 0) 0 (256 * sectorWords)) ∧
    h'.drive.disk.sectors = h.drive.disk.sectors ∧
    (∀ i, i < start ∨ start + words.length ≤ i →
      h'.drive.disk.words.get i = h.drive.disk.words.get i) ∧
    h'.drive.AtRest := by
  intro start h'
  have hquiet := hreach.quiet hrest
  rw [hrest.isBusy] at hbusy
  by_cases hnothing : sectors = 0 ∧ lba.toNat + 256 ≤ h.drive.disk.sectors
  · obtain ⟨rfl, hdisk⟩ := hnothing
    obtain rfl : words = [] := List.eq_nil_of_length_eq_zero (hlength.trans (Nat.zero_mul _))
    obtain ⟨last, hfails⟩ := HostM.writeSectors_nothing_fails (b := h.backdrop) hlba hdisk
      (Nat.le_trans (by decide) hmax) (Nat.le_trans (by decide) hsteps)
    obtain ⟨h₁, hrun, hquiet'⟩ := hfails h hquiet
    obtain rfl : h' = h₁ := HostM.leaves_of_error hrun
    obtain ⟨hcommands, hsame⟩ := hquiet'.behind
    refine ⟨⟨fun _ => ⟨rfl, hdisk⟩, fun _ => hquiet'.isBusy⟩, fun _ => ⟨hrun, ?_⟩, ?_,
      fun i _ => ?_, hquiet'.atRest⟩
    · rw [hcommands]
      rfl
    · rw [hsame]
      rfl
    · rw [hsame]
      rfl
  · obtain ⟨report, commands, disk, last, hdoes, hdone, hsize, hwords⟩ :=
      HostM.writeSectors_reports (b := h.backdrop) hbusy hlba hsectors hlength hnothing hmax hsteps
    obtain ⟨h₁, hrun, hquiet'⟩ := hdoes h hquiet
    obtain rfl : h' = h₁ := HostM.leaves_of_ok hrun
    have hidle : h'.drive.isBusy = false := hquiet'.isBusy.trans hdone
    rw [hidle, hquiet'.behind.2]
    exact ⟨⟨fun hwaits => (by cases hwaits), fun h => absurd h hnothing⟩,
      fun hwaits => (by cases hwaits), hsize, hwords, hquiet'.atRest⟩

/-- No sectors and one sector, for a drive of 256 sectors that has just been brought up. -/
theorem writeSectors_leaves_waiting_iff_256 :
    let new : Host := .new (.new { LinkParameters.standard with alignCount := 1 } (.zeroed 256))
    let h := HostM.awaitIdle.leaves (HostM.bringUp.leaves new)
    h.Reachable ∧ h.drive.AtRest ∧ h.drive.isBusy = false ∧
      ((HostM.writeSectors 0 []).leaves h).drive.isBusy = true ∧
      ¬((HostM.writeSectors 0 (List.replicate 128 7)).leaves h).drive.isBusy = true ∧
      ((HostM.writeSectors 0 (List.replicate 128 7)).leaves h).drive.disk.words.get 128 = 0 := by
  intro new h
  have hreach : h.Reachable :=
    .leaves HostM.awaitIdle_steps (.leaves HostM.bringUp_steps (.new _ _))
  have hrest : h.drive.AtRest :=
    ⟨by decide +kernel, by decide +kernel, by decide +kernel⟩
  have hbusy : h.drive.isBusy = false := by decide +kernel
  have hmax : maxDataWords + 1 ≤ h.drive.link.parameters.maxFrameWords := by decide +kernel
  have hsteps : 6 ≤ h.stepLimit := by decide +kernel
  have hlength : (List.replicate 128 (7 : UInt32)).length = 1 * sectorWords :=
    List.length_replicate
  obtain ⟨hnone, -⟩ := @writeSectors_leaves_waiting_iff h hreach hrest hbusy hmax hsteps 0
    (by decide) 0 (by decide) [] rfl
  obtain ⟨hone, -, -, hwords, -⟩ := @writeSectors_leaves_waiting_iff h hreach hrest hbusy hmax
    hsteps 0 (by decide) 1 (by decide) _ hlength
  refine ⟨hreach, hrest, hbusy, hnone.mpr ⟨rfl, by decide +kernel⟩, fun hwaits => ?_, ?_⟩
  · exact absurd (hone.mp hwaits).1 (by decide)
  · rw [hwords 128 (.inr (Nat.le_of_eq ?_))]
    · decide +kernel
    · rw [hlength]
      rfl

/-- A write of no sectors to a drive that has 256 of them. -/
theorem waiting_after_empty_write :
    let new : Host := .new (.new { LinkParameters.standard with alignCount := 1 } (.zeroed 256))
    let h := HostM.awaitIdle.leaves (HostM.bringUp.leaves new)
    h.Reachable ∧ h.drive.AtRest ∧ h.drive.isBusy = false ∧
      2049 ≤ h.drive.link.parameters.maxFrameWords ∧ 2051 ≤ h.stepLimit ∧
      (0 : UInt64).toNat < addressLimit ∧ ([] : List UInt32).length = 0 * sectorWords ∧
      ((HostM.writeSectors 0 []).leaves h).drive.isBusy = true :=
  ⟨.leaves HostM.awaitIdle_steps (.leaves HostM.bringUp_steps (.new _ _)),
    ⟨by decide +kernel, by decide +kernel, by decide +kernel⟩, by decide +kernel,
    by decide +kernel, by decide +kernel, by decide, rfl, by decide +kernel⟩

/-! ### Addresses of 64 bits -/

section Address

variable {h : Host} {lba : UInt64} {sectors : Nat}

theorem toNat_and_addressMask_lt (lba : UInt64) : (lba &&& addressMask).toNat < addressLimit := by
  rw [toNat_and_addressMask]
  exact Nat.mod_lt _ (by decide)

/-- What comes of a write, by the part of the address that reaches the drive. -/
theorem writeSectors_outcome (hreach : h.Reachable) (hrest : h.drive.AtRest)
    (hmax : maxDataWords + 1 ≤ h.drive.link.parameters.maxFrameWords) (hsteps : 6 ≤ h.stepLimit)
    (hpos : 1 ≤ sectors) (hsectors : sectors ≤ 256) {words : List UInt32}
    (hlength : words.length = sectors * sectorWords) :
    ∃ report h', (HostM.writeSectors lba words).run h = .ok report h' ∧
      (h.drive.disk.sectors < lba.toNat % addressLimit + sectors →
        report.isError = true ∧ h'.drive.disk = h.drive.disk) ∧
      (lba.toNat % addressLimit + sectors ≤ h.drive.disk.sectors →
        report.isError = false ∧
        h'.drive.disk = h.drive.disk.overlaid (lba.toNat % addressLimit * sectorWords) words) := by
  have hlba := toNat_and_addressMask_lt lba
  rw [← HostM.writeSectors_and_addressMask, ← toNat_and_addressMask]
  obtain ⟨report, commands, disk, last, hdoes, -, hrefused, hcarried⟩ :=
    HostM.writeSectors_judged (b := h.backdrop) hlba hpos hsectors hlength hmax hsteps
  obtain ⟨h', hrun, hquiet'⟩ := hdoes h (hreach.quiet hrest)
  have hdisk : h'.drive.disk = disk := hquiet'.behind.2
  rw [← hdisk] at hrefused hcarried
  exact ⟨report, h', hrun, hrefused, hcarried⟩

/-- What comes of a read. -/
theorem readSectors_outcome (hreach : h.Reachable) (hrest : h.drive.AtRest)
    (hmax : 5 ≤ h.drive.link.parameters.maxFrameWords) (hsteps : maxDataWords + 3 ≤ h.stepLimit)
    (hpos : 1 ≤ sectors) (hsectors : sectors ≤ 256) :
    ∃ words report h', (HostM.readSectors lba sectors.toUInt8).run h = .ok (words, report) h' ∧
      h'.drive.disk = h.drive.disk ∧
      (h.drive.disk.sectors < lba.toNat % addressLimit + sectors →
        report.isError = true ∧ words = []) ∧
      (lba.toNat % addressLimit + sectors ≤ h.drive.disk.sectors →
        report.isError = false ∧ words.length = sectors * sectorWords) := by
  have hquiet := hreach.quiet hrest
  have hlba := toNat_and_addressMask_lt lba
  have hcount := HostRegister.sectorCount_ofCommand hpos hsectors .readDma (lba &&& addressMask)
  rw [← HostM.readSectors_and_addressMask, ← toNat_and_addressMask]
  rcases Nat.lt_or_ge h.drive.disk.sectors ((lba &&& addressMask).toNat + sectors) with hout | hin
  · obtain ⟨last, hdoes⟩ := HostM.readSectors_aborted (b := h.backdrop) hlba
      (hcount.symm ▸ hout) hmax (Nat.le_trans (by decide) hsteps)
    obtain ⟨h', hrun, hquiet'⟩ := hdoes h hquiet
    exact ⟨_, _, h', hrun, hquiet'.behind.2, fun _ => ⟨DeviceRegister.isError_aborted .., rfl⟩,
      fun hin => absurd hout (Nat.not_lt.mpr hin)⟩
  · obtain ⟨last, hdoes⟩ := HostM.readSectors_complete (b := h.backdrop) hlba
      (hcount.symm ▸ hin) hmax hsteps
    obtain ⟨h', hrun, hquiet'⟩ := hdoes h hquiet
    rw [hcount] at hrun
    exact ⟨_, _, h', hrun, hquiet'.behind.2, fun hout => absurd hout (Nat.not_lt.mpr hin),
      fun _ => ⟨DeviceRegister.isError_complete .., Store.length_slice ..⟩⟩

end Address

/-- **Sectors that the disk does not have are refused**, as far as their address reaches the drive.
The drive of a reachable host is at rest. A write of 1 to 256 sectors and a read of as many both
come to a report, and they are refused exactly if the disk ends before the last of the sectors that
begin at the low 48 bits of the address. Then no words are read, and the disk is as it was. -/
theorem refused_beyond_disk {h : Host} (hreach : h.Reachable) (hrest : h.drive.AtRest)
    (hmax : maxDataWords + 1 ≤ h.drive.link.parameters.maxFrameWords)
    (hsteps : maxDataWords + 3 ≤ h.stepLimit) (lba : UInt64) {sectors : Nat} (hpos : 1 ≤ sectors)
    (hsectors : sectors ≤ 256) :
    let beyond := h.drive.disk.sectors < lba.toNat % addressLimit + sectors
    (∀ words : List UInt32, words.length = sectors * sectorWords →
      ∃ report h', (HostM.writeSectors lba words).run h = .ok report h' ∧
        (report.isError = true ↔ beyond) ∧ (beyond → h'.drive.disk = h.drive.disk)) ∧
    ∃ words report h', (HostM.readSectors lba sectors.toUInt8).run h = .ok (words, report) h' ∧
      (report.isError = true ↔ beyond) ∧ (beyond → words = []) ∧
      h'.drive.disk = h.drive.disk := by
  intro beyond
  have hcases := Nat.lt_or_ge h.drive.disk.sectors (lba.toNat % addressLimit + sectors)
  refine ⟨fun words hlength => ?_, ?_⟩
  · obtain ⟨report, h', hrun, hrefused, hcarried⟩ := @writeSectors_outcome h lba sectors hreach
      hrest hmax (Nat.le_trans (by decide) hsteps) hpos hsectors words hlength
    refine ⟨report, h', hrun, ⟨fun herror => ?_, fun hout => (hrefused hout).1⟩,
      fun hout => (hrefused hout).2⟩
    exact hcases.resolve_right fun hin => Bool.eq_false_iff.mp (hcarried hin).1 herror
  · obtain ⟨words, report, h', hrun, hdisk, hrefused, hcarried⟩ := @readSectors_outcome h lba
      sectors hreach hrest (Nat.le_trans (by decide) hmax) hsteps hpos hsectors
    refine ⟨words, report, h', hrun, ⟨fun herror => ?_, fun hout => (hrefused hout).1⟩,
      fun hout => (hrefused hout).2, hdisk⟩
    exact hcases.resolve_right fun hin => Bool.eq_false_iff.mp (hcarried hin).1 herror

/-- Two sectors of which the disk has one, by an address of which the drive gets the 7. -/
theorem refused_beyond_disk_last :
    let new : Host := .new (.new { LinkParameters.standard with alignCount := 1 } (.zeroed 8))
    let h := HostM.awaitIdle.leaves (HostM.bringUp.leaves new)
    h.Reachable ∧ h.drive.AtRest ∧
      (∃ report h', (HostM.writeSectors 0x1000000000007 (List.replicate 256 7)).run h =
        .ok report h' ∧ report.isError = true ∧ h'.drive.disk = h.drive.disk) ∧
      ∃ report h', (HostM.readSectors 0x1000000000007 2).run h = .ok ([], report) h' ∧
        report.isError = true := by
  intro new h
  have hreach : h.Reachable :=
    .leaves HostM.awaitIdle_steps (.leaves HostM.bringUp_steps (.new _ _))
  have hrest : h.drive.AtRest :=
    ⟨by decide +kernel, by decide +kernel, by decide +kernel⟩
  have hmax : maxDataWords + 1 ≤ h.drive.link.parameters.maxFrameWords := by decide +kernel
  have hsteps : maxDataWords + 3 ≤ h.stepLimit := by decide +kernel
  have hbeyond : h.drive.disk.sectors < (0x1000000000007 : UInt64).toNat % addressLimit + 2 := by
    decide +kernel
  have hlength : (List.replicate 256 (7 : UInt32)).length = 2 * sectorWords :=
    List.length_replicate
  obtain ⟨hwrite, words, report₂, h₂, hread, hisError₂, hnone, -⟩ := @refused_beyond_disk h hreach
    hrest hmax hsteps 0x1000000000007 2 (by decide) (by decide)
  obtain ⟨report₁, h₁, hrun, hisError₁, hdisk⟩ := hwrite _ hlength
  have htwo : (2 : Nat).toUInt8 = 2 := rfl
  rw [hnone hbeyond, htwo] at hread
  exact ⟨hreach, hrest, ⟨report₁, h₁, hrun, hisError₁.mpr hbeyond, hdisk hbeyond⟩, report₂, h₂,
    hread, hisError₂.mpr hbeyond⟩

/-- Two to the power of 48 is no sector of a disk of eight, but the drive takes it for sector 0: a
write goes there, and a read comes from there. -/
theorem carried_out_beyond_disk :
    let new : Host := .new (.new { LinkParameters.standard with alignCount := 1 } (.zeroed 8))
    let h := HostM.awaitIdle.leaves (HostM.bringUp.leaves new)
    h.Reachable ∧ h.drive.AtRest ∧ h.drive.isBusy = false ∧
      2049 ≤ h.drive.link.parameters.maxFrameWords ∧ 2051 ≤ h.stepLimit ∧
      h.drive.disk.sectors < (0x1000000000000 : UInt64).toNat + 1 ∧
      (∃ report h', (HostM.writeSectors 0x1000000000000 (List.replicate 128 7)).run h =
        .ok report h' ∧ report.isError = false ∧ h'.drive.disk.words.get 0 = 7) ∧
      ∃ words report h', (HostM.readSectors 0x1000000000000 1).run h = .ok (words, report) h' ∧
        report.isError = false ∧ words.length = 128 := by
  intro new h
  have hreach : h.Reachable :=
    .leaves HostM.awaitIdle_steps (.leaves HostM.bringUp_steps (.new _ _))
  have hrest : h.drive.AtRest :=
    ⟨by decide +kernel, by decide +kernel, by decide +kernel⟩
  have hmax : 2049 ≤ h.drive.link.parameters.maxFrameWords := by decide +kernel
  have hsteps : 2051 ≤ h.stepLimit := by decide +kernel
  have hin : (0x1000000000000 : UInt64).toNat % addressLimit + 1 ≤ h.drive.disk.sectors := by
    decide +kernel
  have hlength : (List.replicate 128 (7 : UInt32)).length = 1 * sectorWords :=
    List.length_replicate
  have hone : (1 : Nat).toUInt8 = 1 := rfl
  obtain ⟨report₁, h₁, hwrite, -, hcarried₁⟩ := @writeSectors_outcome h 0x1000000000000 1 hreach
    hrest hmax (Nat.le_trans (by decide) hsteps) (by decide) (by decide) _ hlength
  obtain ⟨words, report₂, h₂, hread, -, -, hcarried₂⟩ := @readSectors_outcome h 0x1000000000000 1
    hreach hrest (Nat.le_trans (by decide) hmax) hsteps (by decide) (by decide)
  rw [hone] at hread
  refine ⟨hreach, hrest, by decide +kernel, hmax, hsteps, by decide +kernel,
    ⟨report₁, h₁, hwrite, (hcarried₁ hin).1, ?_⟩, words, report₂, h₂, hread, hcarried₂ hin⟩
  rw [(hcarried₁ hin).2]
  decide +kernel

end Host

end SerialAta
