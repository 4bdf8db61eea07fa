import SerialAta.Proofs.Drive.Delivery
import SerialAta.Proofs.Drive.DiskWrites
import SerialAta.Proofs.Storage.Images
/-!
# SerialAta.Proofs.Drive.Soundness

**Nothing that a host sends leads the command layer astray** (`sound_under_any_traffic`). Frames
are any words at all; of what they make of the command layer, the disk and the answers, the
invariant `Sound` says what can be relied on.

A write is checked against the size of the disk once, by the command that opens it. Its data come
later, and with anything in between, so the invariant remembers of a write in progress which of
the frames has opened it (`Accepted`). That is what keeps the words on the disk, and also what
tells which bytes can have changed.
-/

namespace SerialAta

namespace CommandLayer

/-- Among the frames is the command `r`, a write of sectors that a disk of this size has. -/
def Accepted (sectors : Nat) (frames : List Frame) (r : HostRegister) : Prop :=
  (∃ frame ∈ frames, Fis.ofWords frame = .ok (.hostRegister r)) ∧ r.command = .writeDma ∧
    r.lba.toNat + r.sectorCount ≤ sectors

/-- What holds after `frames`, which a new command layer has answered with `replies`. -/
structure Sound (initial : Disk) (frames : List Frame) (replies : List Fis) (c : CommandLayer)
    (disk : Disk) : Prop where
  sectors : disk.sectors = initial.sectors
  buffer : c.buffer.length = sectorWords
  /-- A write in progress has been accepted, and misses words. -/
  transfer : ∀ r done total, c.transfer = .writeDma r done total →
    Accepted initial.sectors frames r ∧ total = r.sectorCount * sectorWords ∧ done < total
  replies : ∀ payload, Fis.data payload ∈ replies →
    1 ≤ payload.length ∧ payload.length ≤ maxDataWords
  /-- Words that have changed are in the sectors of an accepted write. -/
  words : ∀ i, disk.words.get i ≠ initial.words.get i →
    ∃ r, Accepted initial.sectors frames r ∧ r.lba.toNat * sectorWords ≤ i ∧
      i < (r.lba.toNat + r.sectorCount) * sectorWords

/-- What is taken of the data, the disk and the buffer for a frame is there, and words that are
waited for can be written. -/
structure InBounds (c : CommandLayer) (disk : Disk) (frame : Frame) : Prop where
  write : ∀ payload r done total, Fis.ofWords frame = .ok (.data payload) →
    c.transfer = .writeDma r done total →
    done ≤ total ∧
      r.lba.toNat * sectorWords + done + min payload.length (total - done) ≤
        disk.sectors * sectorWords ∧
      (∃ after, disk.write r.lba done (payload.take (total - done)) = (.ok (), after)) ∧
      ((c.handle disk frame).1 = [.dmaActivate] ∨ (c.handle disk frame).1 = [complete r])
  writeBuffer : ∀ payload r, Fis.ofWords frame = .ok (.data payload) →
    c.transfer = .writeBuffer r → min payload.length sectorWords ≤ c.buffer.length
  read : ∀ r words, Fis.ofWords frame = .ok (.hostRegister r) →
    disk.read r.lba r.sectorCount = .ok words →
    r.lba.toNat * sectorWords + r.sectorCount * sectorWords ≤ disk.sectors * sectorWords

variable {initial disk : Disk} {frames : List Frame} {replies : List Fis} {c : CommandLayer}
variable {r : HostRegister}

/-! ### One frame -/

theorem Accepted.concat {sectors : Nat} (h : Accepted sectors frames r) (frame : Frame) :
    Accepted sectors (frames ++ [frame]) r := by
  obtain ⟨⟨f, hf, hr⟩, hrest⟩ := h
  exact ⟨⟨f, List.mem_append_left _ hf, hr⟩, hrest⟩

/-- Data in the answer to a command are words of the disk or the buffer. -/
theorem length_of_data_mem_handleCommand (hbuffer : c.buffer.length = sectorWords)
    {payload : List UInt32} (h : .data payload ∈ (c.handleCommand disk r).1) :
    1 ≤ payload.length ∧ payload.length ≤ maxDataWords := by
  cases hr : r.command with
  | readDma =>
      cases hread : disk.read r.lba r.sectorCount with
      | error e => simp [handleCommand, hr, hread, aborted] at h
      | ok words =>
          simp [handleCommand, hr, hread, complete] at h
          exact length_of_mem_chunks h
  | readBuffer =>
      simp [handleCommand, hr] at h
      rw [h, hbuffer]
      decide
  | writeDma =>
      cases hseek : disk.seek r.lba r.sectorCount <;>
        simp [handleCommand, hr, hseek, aborted] at h
  | writeBuffer => simp [handleCommand, hr] at h
  | other code => simp [handleCommand, hr, aborted] at h

/-- What a frame has to respect. It may end the transfer, open one that is in order or take one
further, put words into the buffer, and write to sectors of an accepted write. -/
theorem Sound.extend (h : Sound initial frames replies c disk) (frame : Frame) {more : List Fis}
    {next : CommandLayer} {after : Disk} (hsectors : after.sectors = disk.sectors)
    (hbuffer : next.buffer.length = sectorWords)
    (htransfer : ∀ r done total, next.transfer = .writeDma r done total →
      c.transfer = .writeDma r done total ∨
        Accepted initial.sectors (frames ++ [frame]) r ∧ total = r.sectorCount * sectorWords ∧
          done < total)
    (hmore : ∀ payload, Fis.data payload ∈ more →
      1 ≤ payload.length ∧ payload.length ≤ maxDataWords)
    (hwords : ∀ i, after.words.get i ≠ disk.words.get i →
      ∃ r, Accepted initial.sectors frames r ∧ r.lba.toNat * sectorWords ≤ i ∧
        i < (r.lba.toNat + r.sectorCount) * sectorWords) :
    Sound initial (frames ++ [frame]) (replies ++ more) next after where
  sectors := hsectors.trans h.sectors
  buffer := hbuffer
  transfer := by
    intro r done total ht
    rcases htransfer r done total ht with hsame | hopen
    · obtain ⟨haccepted, hrest⟩ := h.transfer r done total hsame
      exact ⟨haccepted.concat frame, hrest⟩
    · exact hopen
  replies := by
    intro payload hp
    rcases List.mem_append.mp hp with hp | hp
    · exact h.replies payload hp
    · exact hmore payload hp
  words := by
    intro i hi
    by_cases hnow : after.words.get i = disk.words.get i
    · rw [hnow] at hi
      obtain ⟨r, haccepted, hrange⟩ := h.words i hi
      exact ⟨r, haccepted.concat frame, hrange⟩
    · obtain ⟨r, haccepted, hrange⟩ := hwords i hnow
      exact ⟨r, haccepted.concat frame, hrange⟩

theorem Sound.handleCommand (h : Sound initial frames replies c disk) {frame : Frame}
    (hr : Fis.ofWords frame = .ok (.hostRegister r)) :
    Sound initial (frames ++ [frame]) (replies ++ (c.handleCommand disk r).1)
      (c.handleCommand disk r).2 disk := by
  refine h.extend frame rfl ?_ ?_ (fun _ => length_of_data_mem_handleCommand h.buffer)
    fun _ hi => absurd rfl hi
  · rw [handleCommand_snd]
    split
    · exact h.buffer
    · split <;> exact h.buffer
  · intro r' done total ht
    rw [handleCommand_snd] at ht
    split at ht
    · next hopen =>
      cases ht
      have hin := hopen.2
      rw [h.sectors] at hin
      refine .inr ⟨⟨⟨frame, by simp, hr⟩, hopen.1, hin⟩, rfl, ?_⟩
      exact Nat.mul_pos r.sectorCount_pos (by decide)
    · split at ht
      · cases ht
      · exact .inl ht

/-- The words of an accepted write go where the command says. -/
theorem Sound.handleData_writeDma (h : Sound initial frames replies c disk) (frame : Frame)
    (payload : List UInt32) {done total : Nat} (ht : c.transfer = .writeDma r done total) :
    Sound initial (frames ++ [frame]) (replies ++ (c.handleData disk payload).1)
      (c.handleData disk payload).2.1 (c.handleData disk payload).2.2 := by
  obtain ⟨haccepted, rfl, hdone⟩ := h.transfer r done total ht
  have hdisk : r.lba.toNat + r.sectorCount ≤ disk.sectors := h.sectors ▸ haccepted.2.2
  have hlast := Nat.add_mul r.lba.toNat r.sectorCount sectorWords
  have hfit : r.lba.toNat * sectorWords + done +
      (payload.take (r.sectorCount * sectorWords - done)).length ≤
        (r.lba.toNat + r.sectorCount) * sectorWords := by
    rw [List.length_take]
    omega
  rw [CommandLayer.handleData_writeDma payload hdisk ht hdone]
  refine h.extend frame rfl h.buffer ?_ ?_ ?_
  · intro r' done' total' hnext
    dsimp only at hnext
    split at hnext
    · next hmissing =>
      cases hnext
      exact .inr ⟨haccepted.concat frame, rfl, hmissing⟩
    · cases hnext
  · intro p hp
    dsimp only at hp
    split at hp <;> simp [complete] at hp
  · intro i hi
    dsimp only at hi
    rw [Disk.get_overlaid disk (Nat.le_trans hfit (Nat.mul_le_mul_right sectorWords hdisk))] at hi
    split at hi
    · exact ⟨r, haccepted, by omega, by omega⟩
    · exact absurd rfl hi

theorem Sound.handleData (h : Sound initial frames replies c disk) (frame : Frame)
    (payload : List UInt32) :
    Sound initial (frames ++ [frame]) (replies ++ (c.handleData disk payload).1)
      (c.handleData disk payload).2.1 (c.handleData disk payload).2.2 := by
  cases ht : c.transfer with
  | writeDma r done total => exact h.handleData_writeDma frame payload ht
  | none =>
      simp only [CommandLayer.handleData, ht]
      exact h.extend frame rfl h.buffer (fun _ _ _ => .inl) (by simp) (by simp)
  | writeBuffer r =>
      simp only [CommandLayer.handleData, ht]
      exact h.extend frame rfl (by rw [length_overlay, h.buffer]) (by simp) (by simp [complete])
        (by simp)

/-- The step of the invariant. -/
theorem Sound.handle (h : Sound initial frames replies c disk) (frame : Frame) :
    Sound initial (frames ++ [frame]) (replies ++ (c.handle disk frame).1)
      (c.handle disk frame).2.1 (c.handle disk frame).2.2 := by
  rcases handle_cases c disk frame with ⟨r, hr, hrun⟩ | ⟨payload, -, hrun⟩ | ⟨-, hrun⟩
  · rw [hrun]
    exact h.handleCommand hr
  · rw [hrun]
    exact h.handleData frame payload
  · rw [hrun]
    exact h.extend frame rfl h.buffer (fun _ _ _ => .inl) (by simp) (by simp)

/-- In a sound state, nothing is taken that is not there. -/
theorem Sound.inBounds (h : Sound initial frames replies c disk) (frame : Frame) :
    InBounds c disk frame where
  write := by
    intro payload r done total hdata ht
    obtain ⟨haccepted, rfl, hdone⟩ := h.transfer r done total ht
    have hdisk : r.lba.toNat + r.sectorCount ≤ disk.sectors := h.sectors ▸ haccepted.2.2
    have hlast := Nat.mul_le_mul_right sectorWords hdisk
    rw [Nat.add_mul] at hlast
    have hend : done + (payload.take (r.sectorCount * sectorWords - done)).length ≤
        r.sectorCount * sectorWords := by
      rw [List.length_take]
      omega
    refine ⟨Nat.le_of_lt hdone, by omega, ⟨_, Disk.write_of_le _ hdisk hdone hend⟩, ?_⟩
    rw [handle_of_data hdata, CommandLayer.handleData_writeDma payload hdisk ht hdone]
    dsimp only
    split
    · exact .inl rfl
    · exact .inr rfl
  writeBuffer := by
    intro payload r _ _
    rw [h.buffer]
    exact Nat.min_le_right ..
  read := by
    intro r words _ hread
    have hdisk : r.lba.toNat + r.sectorCount ≤ disk.sectors := by
      refine Decidable.byContradiction fun hout => ?_
      simp [Disk.read, Disk.seek, hout] at hread
    have hlast := Nat.mul_le_mul_right sectorWords hdisk
    rwa [Nat.add_mul] at hlast

theorem Sound.bytes (h : Sound initial frames replies c disk) {i : Nat}
    (hi : disk.toBytes[i]? ≠ initial.toBytes[i]?) :
    ∃ r, Accepted initial.sectors frames r ∧ r.lba.toNat * sectorBytes ≤ i ∧
      i < (r.lba.toNat + r.sectorCount) * sectorBytes := by
  have hword : disk.words.get (i / 4) ≠ initial.words.get (i / 4) := by
    intro hsame
    have hsize : disk.byteSize = initial.byteSize := congrArg (· * sectorBytes) h.sectors
    rw [Disk.getElem?_toBytes, Disk.getElem?_toBytes, hsame, hsize] at hi
    exact hi rfl
  obtain ⟨r, haccepted, hfirst, hlast⟩ := h.words (i / 4) hword
  simp only [sectorWords, sectorBytes] at *
  exact ⟨r, haccepted, by omega, by omega⟩

/-! ### Any frames -/

theorem sound_new (disk : Disk) : Sound disk [] [] .new disk where
  sectors := rfl
  buffer := by simp [new]
  transfer := by simp [new]
  replies := by simp
  words := fun _ hi => absurd rfl hi

theorem Sound.handleAll (h : Sound initial frames replies c disk) (later : List Frame) :
    Sound initial (frames ++ later) (replies ++ (c.handleAll disk later).1)
      (c.handleAll disk later).2.1 (c.handleAll disk later).2.2 := by
  induction later generalizing frames replies c disk with
  | nil =>
      rw [List.append_nil, CommandLayer.handleAll, List.append_nil]
      exact h
  | cons frame later ih =>
      have hnext := ih (h.handle frame)
      rw [List.append_assoc, List.append_assoc] at hnext
      exact hnext

/-- **Whatever a host sends, the command layer stays in order.** The disk keeps its size and the
buffer its sector. A write in progress misses words and has its sectors on the disk, so that
nothing is ever taken from where there is nothing, and no data of a write are refused. No data FIS
of an answer is empty or too long. And only sectors that accepted writes name can have changed. -/
theorem sound_under_any_traffic (disk : Disk) (frames : List Frame) :
    let (replies, c, now) := CommandLayer.new.handleAll disk frames
    now.sectors = disk.sectors ∧ c.buffer.length = sectorWords ∧
      (∀ r done total, c.transfer = .writeDma r done total →
        done < total ∧ total = r.sectorCount * sectorWords ∧
          r.lba.toNat + r.sectorCount ≤ now.sectors) ∧
      (∀ frame, InBounds c now frame) ∧
      (∀ payload, Fis.data payload ∈ replies →
        1 ≤ payload.length ∧ payload.length ≤ maxDataWords) ∧
      ∀ i, now.toBytes[i]? ≠ disk.toBytes[i]? →
        ∃ r, Accepted disk.sectors frames r ∧ r.lba.toNat * sectorBytes ≤ i ∧
          i < (r.lba.toNat + r.sectorCount) * sectorBytes := by
  have h := (sound_new disk).handleAll frames
  rw [List.nil_append, List.nil_append] at h
  generalize CommandLayer.new.handleAll disk frames = run at h ⊢
  obtain ⟨replies, c, now⟩ := run
  refine ⟨h.sectors, h.buffer, ?_, h.inBounds, h.replies, fun i => h.bytes⟩
  intro r done total ht
  obtain ⟨haccepted, htotal, hdone⟩ := h.transfer r done total ht
  exact ⟨hdone, htotal, h.sectors ▸ haccepted.2.2⟩

end CommandLayer

end SerialAta
