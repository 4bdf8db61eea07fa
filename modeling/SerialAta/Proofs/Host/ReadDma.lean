import SerialAta.Proofs.Drive.DiskReads
import SerialAta.Proofs.Host.WriteDma
/-!
# SerialAta.Proofs.Host.ReadDma

**Reading sectors, from end to end** (`readSectors_returns`): the host gets the words of the
sectors it asked for, all of them and in order, or it is told that the disk does not have them.

When the command has been handled, all the answers wait in the drive: the data FISes and the
report. The host does not know how many there are and goes on until the report, so the
induction is on the payloads that are left in the queue, whatever their lengths are
(`receivePayloads_does`). What the host has got in the end are the payloads put together, and
those were cut from the words of the sectors.
-/

namespace SerialAta

/-- The number of frames that wait for the host. -/
theorem Backdrop.Quiet.pending {b : Backdrop} {state : LinkState} {parameters : LinkParameters}
    {queue : List Frame} {h : Host} (hq : b.Quiet state parameters queue h) :
    h.drive.link.pending = queue.length := by
  obtain ⟨l, hl, hlinked⟩ := hq
  rw [hlinked.link, Link.pending, hl.outbound]

namespace HostM

variable {b : Backdrop} {parameters : LinkParameters} {queue : List Frame}

/-! ### The data -/

/-- Payloads are put together in the order of the queue, until the report comes. -/
theorem receivePayloads_does {payloads : List (List UInt32)} {report : DeviceRegister}
    (hlba : report.lba.toNat < addressLimit) (hsteps : 6 ≤ b.limit)
    (hlength : ∀ payload ∈ payloads, payload.length + 3 ≤ b.limit) (words : List UInt32)
    {frames : Nat} (hframes : payloads.length + 1 ≤ frames) :
    Does (receivePayloads words frames)
      (b.Quiet .idle parameters
        ((payloads.map Fis.data ++ [Fis.deviceRegister report]).map Fis.toWords))
      (words ++ payloads.flatten, report) (b.Quiet .idle parameters []) := by
  induction payloads generalizing words frames with
  | nil =>
      obtain ⟨n, rfl⟩ : ∃ n, frames = n + 1 := ⟨frames - 1, by omega⟩
      rw [List.flatten_nil, List.append_nil]
      exact (receiveFis_report hlba hsteps).bind (.pure _ _)
  | cons payload payloads ih =>
      obtain ⟨n, rfl⟩ : ∃ n, frames = n + 1 := ⟨frames - 1, by omega⟩
      have hfirst := hlength payload (List.mem_cons_self ..)
      have hothers := fun p hp => hlength p (List.mem_cons_of_mem payload hp)
      rw [List.length_cons] at hframes
      have hdata := @receiveFis_does b parameters
        ((payloads.map Fis.data ++ [Fis.deviceRegister report]).map Fis.toWords) .idle (.inl rfl)
        (by omega) (.data payload) _ hfirst (Fis.ofWords_data payload)
      have hrest := @ih hothers (words ++ payload) n (by omega)
      rw [List.append_assoc] at hrest
      exact hdata.bind hrest

/-! ### The command -/

section Command

variable {lba : UInt64} {count : UInt8}

/-- The command is sent, and its answers are received up to the report. -/
theorem readSectors_of_handle {payloads : List (List UInt32)} {report : DeviceRegister}
    {r : HostRegister} (hr : r = .ofCommand .readDma lba count)
    (hmax : 5 ≤ parameters.maxFrameWords) (hsteps : 6 ≤ b.limit)
    (hlba : report.lba.toNat < addressLimit)
    (hlength : ∀ payload ∈ payloads, payload.length + 3 ≤ b.limit)
    (hhandle : b.commands.handle b.disk (Fis.hostRegister r).toWords =
      (payloads.map .data ++ [.deviceRegister report], b.commands, b.disk)) :
    ∃ last, Does (readSectors lba count) (b.Quiet .idle parameters [])
      (payloads.flatten, report) ((b.update b.commands b.disk last).Quiet .idle parameters []) := by
  let b' := b.update b.commands b.disk (Fis.hostRegister r).toWords
  have hcommand := @sendFis_does b parameters [] .idle (.inl rfl) (by omega) (.hostRegister r) _ _ _
    hmax hhandle
  rw [List.nil_append] at hcommand
  refine ⟨(Fis.hostRegister r).toWords, ?_⟩
  rw [readSectors, ← hr]
  refine hcommand.bind (.read fun h hh => ?_)
  -- All the answers are pending, so the host has room for as many frames as it will meet.
  have hpending : payloads.length + 1 ≤ h.drive.link.pending + 1 := by
    rw [hh.pending, List.length_map, List.length_append, List.length_map]
    omega
  have hdata :=
    @receivePayloads_does b' parameters payloads report hlba hsteps hlength [] _ hpending
  rw [List.nil_append] at hdata
  exact hdata

/-- Sectors that the disk has are read. -/
theorem readSectors_complete (hlba : lba.toNat < addressLimit)
    (hdisk : lba.toNat + (HostRegister.ofCommand .readDma lba count).sectorCount ≤ b.disk.sectors)
    (hmax : 5 ≤ parameters.maxFrameWords) (hsteps : maxDataWords + 3 ≤ b.limit) :
    let sectors := (HostRegister.ofCommand .readDma lba count).sectorCount
    ∃ last, Does (readSectors lba count) (b.Quiet .idle parameters [])
      (b.disk.words.slice (lba.toNat * sectorWords) (sectors * sectorWords),
        .complete lba sectors.toUInt16)
      ((b.update b.commands b.disk last).Quiet .idle parameters []) := by
  intro sectors
  let words := b.disk.words.slice (lba.toNat * sectorWords) (sectors * sectorWords)
  have hlength : ∀ payload ∈ chunks maxDataWords words, payload.length + 3 ≤ b.limit := by
    intro payload hp
    have hpiece := (length_of_mem_chunks hp).2
    omega
  have hhandle := @CommandLayer.handle_readDma b.commands b.disk (.ofCommand .readDma lba count)
    hlba rfl hdisk
  have hread := @readSectors_of_handle b parameters lba count _ (.complete lba sectors.toUInt16) _
    rfl hmax (Nat.le_trans (by decide) hsteps) hlba hlength hhandle
  rw [flatten_chunks (by decide)] at hread
  exact hread

/-- A read beyond the end of the disk is refused. -/
theorem readSectors_aborted (hlba : lba.toNat < addressLimit)
    (hdisk : b.disk.sectors < lba.toNat + (HostRegister.ofCommand .readDma lba count).sectorCount)
    (hmax : 5 ≤ parameters.maxFrameWords) (hsteps : 6 ≤ b.limit) :
    let sectors := (HostRegister.ofCommand .readDma lba count).sectorCount
    ∃ last, Does (readSectors lba count) (b.Quiet .idle parameters [])
      ([], .aborted lba sectors.toUInt16)
      ((b.update b.commands b.disk last).Quiet .idle parameters []) := by
  intro sectors
  have hhandle := @CommandLayer.handle_readDma_out b.commands b.disk (.ofCommand .readDma lba count)
    hlba rfl hdisk
  exact @readSectors_of_handle b parameters lba count [] (.aborted lba sectors.toUInt16) _ rfl hmax
    hsteps hlba (fun _ hp => absurd hp List.not_mem_nil) hhandle

end Command

end HostM

namespace Host

/-- **A read of sectors returns their words, or is refused.** The drive of a reachable host is at
rest; it may be waiting for the data of a write. If the disk has the sectors, their words come
in order and the report says that the command was carried out. Otherwise no words come and the
report says that it was refused. Either way disk, sector buffer and a write that waits for data
are as they were, and the drive is at rest again. -/
theorem readSectors_returns {h : Host} (hreach : h.Reachable) (hrest : h.drive.AtRest)
    (hmax : 5 ≤ h.drive.link.parameters.maxFrameWords) (hsteps : maxDataWords + 3 ≤ h.stepLimit)
    {lba : UInt64} (hlba : lba.toNat < addressLimit) (count : UInt8) :
    let sectors := if count = 0 then 256 else count.toNat
    ∃ words report h', (HostM.readSectors lba count).run h = .ok (words, report) h' ∧
      (lba.toNat + sectors ≤ h.drive.disk.sectors →
        report = .complete lba sectors.toUInt16 ∧ words.length = sectors * sectorWords ∧
        ∀ i, (hi : i < words.length) →
          words[i] = h.drive.disk.words.get (lba.toNat * sectorWords + i)) ∧
      (h.drive.disk.sectors < lba.toNat + sectors →
        report = .aborted lba sectors.toUInt16 ∧ words = []) ∧
      h'.drive.disk = h.drive.disk ∧ h'.drive.commands = h.drive.commands ∧
      h'.drive.AtRest := by
  intro sectors
  have hquiet := hreach.quiet hrest
  rcases Nat.lt_or_ge h.drive.disk.sectors (lba.toNat + sectors) with hout | hin
  · obtain ⟨last, hdoes⟩ := @HostM.readSectors_aborted h.backdrop _ lba count hlba hout hmax
      (Nat.le_trans (by decide) hsteps)
    obtain ⟨h', hrun, hquiet'⟩ := hdoes h hquiet
    obtain ⟨hcommands, hdisk⟩ := hquiet'.behind
    exact ⟨_, _, h', hrun, fun hin => by omega, fun _ => ⟨rfl, rfl⟩, hdisk, hcommands,
      hquiet'.atRest⟩
  · obtain ⟨last, hdoes⟩ := @HostM.readSectors_complete h.backdrop _ lba count hlba hin hmax hsteps
    obtain ⟨h', hrun, hquiet'⟩ := hdoes h hquiet
    obtain ⟨hcommands, hdisk⟩ := hquiet'.behind
    refine ⟨_, _, h', hrun, fun _ => ⟨rfl, Store.length_slice .., fun i hi => ?_⟩,
      fun hout => by omega, hdisk, hcommands, hquiet'.atRest⟩
    simp only [Store.slice, List.getElem_map, List.getElem_range]
    rfl

/-- Two sectors, read from a drive that has just been brought up and that holds one word which
is not zero. -/
theorem readSectors_returns_two :
    let new : Host := .new (.new { LinkParameters.standard with alignCount := 1 }
      ((Disk.zeroed 8).overlaid 400 [7]))
    let h := HostM.awaitIdle.leaves (HostM.bringUp.leaves new)
    h.Reachable ∧ h.drive.AtRest ∧
      ∃ words report h', (HostM.readSectors 3 2).run h = .ok (words, report) h' ∧
        report = .complete 3 2 ∧ words.length = 256 ∧ words[16]? = some 7 := by
  intro new h
  have hreach : h.Reachable :=
    .leaves HostM.awaitIdle_steps (.leaves HostM.bringUp_steps (.new _ _))
  have hrest : h.drive.AtRest :=
    ⟨by decide +kernel, by decide +kernel, by decide +kernel⟩
  have hmax : 5 ≤ h.drive.link.parameters.maxFrameWords := by decide +kernel
  have hsteps : maxDataWords + 3 ≤ h.stepLimit := by decide +kernel
  obtain ⟨words, report, h', hrun, hin, -⟩ :=
    @readSectors_returns h hreach hrest hmax hsteps 3 (by decide) 2
  obtain ⟨hreport, hlength, hwords⟩ := hin (by decide +kernel)
  have hword : (16 : Nat) < words.length := by
    rw [hlength]
    decide
  refine ⟨hreach, hrest, words, report, h', hrun, hreport, hlength, ?_⟩
  rw [List.getElem?_eq_getElem hword, hwords 16 hword]
  decide +kernel

end Host

end SerialAta
