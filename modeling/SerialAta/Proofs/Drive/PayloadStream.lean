import SerialAta.Proofs.Drive.Delivery
import SerialAta.Proofs.Drive.DiskWrites
import SerialAta.Proofs.Storage.Images
/-!
# SerialAta.Proofs.Drive.PayloadStream

**A write to the disk takes a stream of words.** How the words are cut into data FISes makes no
difference, nor do the frames in between, as long as none of them opens another write
(`stores_payload_stream`).

The state of the command layer in the course of the write is a function of the words that have
come (`CommandLayer.writing`), and so is the disk. One frame appends its words to the stream,
none if it holds no data (`handle_writing`); a run appends the words of all its frames
(`handleAll_writing`).
-/

namespace SerialAta

/-- The words of the data FIS that a frame holds, if it holds one. -/
def Fis.payload? (frame : Frame) : Option (List UInt32) :=
  match Fis.ofWords frame with
  | .ok (.data payload) => some payload
  | _ => none

/-- The words of all data FISes among the frames, in order. -/
def Fis.payloads (frames : List Frame) : List UInt32 :=
  frames.flatMap fun frame => (payload? frame).getD []

/-- The frame opens no write: it is no write to the buffer, and no write of sectors that a disk of
this size has. -/
def Fis.OpensNoWrite (sectors : Nat) (frame : Frame) : Prop :=
  ∀ r, Fis.ofWords frame = .ok (.hostRegister r) →
    r.command ≠ .writeBuffer ∧ (r.command = .writeDma → sectors < r.lba.toNat + r.sectorCount)

instance (sectors : Nat) (frame : Frame) : Decidable (Fis.OpensNoWrite sectors frame) :=
  match h : Fis.ofWords frame with
  | .ok (.hostRegister r) =>
      decidable_of_iff
        (r.command ≠ .writeBuffer ∧ (r.command = .writeDma → sectors < r.lba.toNat + r.sectorCount))
        ⟨fun hr r' hr' => by cases h.symm.trans hr'; exact hr, fun hall => hall r h⟩
  | .ok (.data _) | .ok (.deviceRegister _) | .ok .dmaActivate | .ok (.pioSetup _) | .error _ =>
      .isTrue fun _ hr => nomatch h.symm.trans hr

theorem Fis.payload?_eq_some_iff {frame : Frame} {payload : List UInt32} :
    payload? frame = some payload ↔ Fis.ofWords frame = .ok (.data payload) := by
  unfold payload?
  constructor
  · intro h
    split at h
    · next hdata => rw [hdata, Option.some.inj h]
    · cases h
  · intro h
    rw [h]

@[simp] theorem Fis.payloads_nil : payloads [] = [] := rfl

theorem Fis.payloads_cons (frame : Frame) (frames : List Frame) :
    payloads (frame :: frames) = (payload? frame).getD [] ++ payloads frames :=
  List.flatMap_cons

namespace CommandLayer

variable {c : CommandLayer} {disk : Disk} {r : HostRegister}

/-! ### The course of a write -/

/-- The command layer in the course of the write `r`, once the words of `stream` have come. -/
def writing (c : CommandLayer) (r : HostRegister) (stream : List UInt32) : CommandLayer :=
  { c with transfer :=
      if stream.length < r.sectorCount * sectorWords then
        .writeDma r stream.length (r.sectorCount * sectorWords)
      else .none }

/-- The disk at that time: words beyond the last sector have been dropped. -/
def written (disk : Disk) (r : HostRegister) (stream : List UInt32) : Disk :=
  disk.overlaid (r.lba.toNat * sectorWords) (stream.take (r.sectorCount * sectorWords))

/-- The answer to a data FIS that comes after the words of `stream`. -/
def acknowledgment (r : HostRegister) (stream payload : List UInt32) : List Fis :=
  if r.sectorCount * sectorWords ≤ stream.length then []
  else if stream.length + payload.length < r.sectorCount * sectorWords then [.dmaActivate]
  else [complete r]

theorem handleData_writing (hdisk : r.lba.toNat + r.sectorCount ≤ disk.sectors)
    (stream payload : List UInt32) :
    (c.writing r stream).handleData (written disk r stream) payload =
      (acknowledgment r stream payload, c.writing r (stream ++ payload),
        written disk r (stream ++ payload)) := by
  by_cases hdone : stream.length < r.sectorCount * sectorWords
  · have ht : (c.writing r stream).transfer =
        .writeDma r stream.length (r.sectorCount * sectorWords) := if_pos hdone
    have hfirst : stream.take (r.sectorCount * sectorWords) = stream :=
      List.take_of_length_le (Nat.le_of_lt hdone)
    have hboth : (stream ++ payload).take (r.sectorCount * sectorWords) =
        stream ++ payload.take (r.sectorCount * sectorWords - stream.length) := by
      rw [List.take_append, hfirst]
    have hdisk' : r.lba.toNat + r.sectorCount ≤ (written disk r stream).sectors := hdisk
    have hopen : ¬r.sectorCount * sectorWords ≤ stream.length := Nat.not_le_of_lt hdone
    rw [handleData_writeDma payload hdisk' ht hdone, acknowledgment, if_neg hopen, written,
      written, hfirst, hboth, Disk.overlaid_overlaid, writing, writing, List.length_append]
  · -- The transfer is over, and the data are ignored.
    have hle : r.sectorCount * sectorWords ≤ stream.length := Nat.le_of_not_lt hdone
    have hdone' : ¬(stream ++ payload).length < r.sectorCount * sectorWords := by
      rw [List.length_append]
      omega
    have ht : (c.writing r stream).transfer = .none := if_neg hdone
    have hsame : c.writing r (stream ++ payload) = c.writing r stream := by
      rw [writing, writing, if_neg hdone, if_neg hdone']
    have htake : written disk r (stream ++ payload) = written disk r stream := by
      rw [written, written, List.take_append_of_le_length hle]
    rw [handleData, acknowledgment, if_pos hle, hsame, htake]
    simp only [ht]

/-- A frame without data that opens no write leaves the command layer and the disk alone. -/
theorem handle_of_opensNoWrite {frame : Frame} (h : Fis.OpensNoWrite disk.sectors frame)
    (hnone : Fis.payload? frame = none) : (c.handle disk frame).2 = (c, disk) := by
  rcases handle_cases c disk frame with ⟨r, hr, hrun⟩ | ⟨payload, hdata, -⟩ | ⟨-, hrun⟩
  · obtain ⟨hbuffer, hout⟩ := h r hr
    have hclosed : ¬(r.command = .writeDma ∧ r.lba.toNat + r.sectorCount ≤ disk.sectors) := by
      rintro ⟨hwrite, hle⟩
      have := hout hwrite
      omega
    rw [hrun, handleCommand_snd, if_neg hclosed, if_neg hbuffer]
  · rw [Fis.payload?_eq_some_iff.mpr hdata] at hnone
    cases hnone
  · rw [hrun]

/-- One frame in the course of the write. -/
theorem handle_writing (hdisk : r.lba.toNat + r.sectorCount ≤ disk.sectors)
    (stream : List UInt32) {frame : Frame} (h : Fis.OpensNoWrite disk.sectors frame) :
    ((c.writing r stream).handle (written disk r stream) frame).2 =
      (c.writing r (stream ++ (Fis.payload? frame).getD []),
        written disk r (stream ++ (Fis.payload? frame).getD [])) := by
  cases hpayload : Fis.payload? frame with
  | none =>
      have h' : Fis.OpensNoWrite (written disk r stream).sectors frame := h
      rw [handle_of_opensNoWrite h' hpayload, Option.getD_none, List.append_nil]
  | some payload =>
      rw [handle_of_data (Fis.payload?_eq_some_iff.mp hpayload), handleData_writing hdisk]
      rfl

/-- The command itself. -/
theorem handle_opens {command : Frame} (hcommand : Fis.ofWords command = .ok (.hostRegister r))
    (hwrite : r.command = .writeDma) (hdisk : r.lba.toNat + r.sectorCount ≤ disk.sectors) :
    c.handle disk command = ([.dmaActivate], c.writing r [], written disk r []) := by
  have hpos := r.sectorCount_pos
  have hempty : ([] : List UInt32).length < r.sectorCount * sectorWords :=
    Nat.mul_pos hpos (by decide)
  rw [handle_of_hostRegister hcommand, handleCommand_writeDma hwrite hdisk, writing,
    if_pos hempty, written, List.take_nil]
  rfl

theorem handleAll_cons_snd (frame : Frame) (frames : List Frame) :
    (c.handleAll disk (frame :: frames)).2 =
      ((c.handle disk frame).2.1.handleAll (c.handle disk frame).2.2 frames).2 := rfl

/-- A run of frames in the course of the write. -/
theorem handleAll_writing (hdisk : r.lba.toNat + r.sectorCount ≤ disk.sectors)
    (stream : List UInt32) {frames : List Frame}
    (h : ∀ frame ∈ frames, Fis.OpensNoWrite disk.sectors frame) :
    ((c.writing r stream).handleAll (written disk r stream) frames).2 =
      (c.writing r (stream ++ Fis.payloads frames),
        written disk r (stream ++ Fis.payloads frames)) := by
  induction frames generalizing stream with
  | nil => rw [Fis.payloads_nil, List.append_nil, handleAll]
  | cons frame frames ih =>
      have hfirst := handle_writing (c := c) hdisk stream (h frame (List.mem_cons_self ..))
      have hrest := ih (stream ++ (Fis.payload? frame).getD [])
        fun f hf => h f (List.mem_cons_of_mem _ hf)
      rw [Fis.payloads_cons, ← List.append_assoc, ← hrest, handleAll_cons_snd, hfirst]

/-- A write to the disk and the frames after it. -/
theorem handleAll_opens {command : Frame} (hcommand : Fis.ofWords command = .ok (.hostRegister r))
    (hwrite : r.command = .writeDma) (hdisk : r.lba.toNat + r.sectorCount ≤ disk.sectors)
    {frames : List Frame} (h : ∀ frame ∈ frames, Fis.OpensNoWrite disk.sectors frame) :
    (c.handleAll disk (command :: frames)).2 =
      (c.writing r (Fis.payloads frames), written disk r (Fis.payloads frames)) := by
  rw [handleAll_cons_snd, handle_opens hcommand hwrite hdisk]
  exact handleAll_writing hdisk [] h

/-! ### What is on the disk -/

theorem get_written (hdisk : r.lba.toNat + r.sectorCount ≤ disk.sectors) (stream : List UInt32)
    (i : Nat) :
    (written disk r stream).words.get i =
      if r.lba.toNat * sectorWords ≤ i ∧
          i < r.lba.toNat * sectorWords + min (r.sectorCount * sectorWords) stream.length then
        stream.getD (i - r.lba.toNat * sectorWords) 0
      else disk.words.get i := by
  have hfit : r.lba.toNat * sectorWords + (stream.take (r.sectorCount * sectorWords)).length ≤
      disk.sectors * sectorWords := by
    have := Nat.mul_le_mul_right sectorWords hdisk
    rw [Nat.add_mul] at this
    rw [List.length_take]
    omega
  rw [written, Disk.get_overlaid disk hfit, List.length_take]
  split
  · next hin =>
    rw [List.getD_eq_getElem?_getD, List.getD_eq_getElem?_getD, List.getElem?_take_of_lt]
    omega
  · rfl

/-- Bytes outside the run of words that have come are as they were. -/
theorem getElem?_toBytes_written (hdisk : r.lba.toNat + r.sectorCount ≤ disk.sectors)
    (stream : List UInt32) {i : Nat}
    (hout : ¬(r.lba.toNat * sectorWords ≤ i / 4 ∧
      i / 4 < r.lba.toNat * sectorWords + min (r.sectorCount * sectorWords) stream.length)) :
    (written disk r stream).toBytes[i]? = disk.toBytes[i]? := by
  rw [Disk.getElem?_toBytes, Disk.getElem?_toBytes, get_written hdisk, if_neg hout]
  rfl

/-- **A write to the disk stores the stream of the words that come**, however these are cut into
data FISes and whatever comes in between, as long as it opens no other write. What is beyond the
last sector is dropped, and nothing else on the disk changes. A data FIS is answered by a DMA
Activate alone while words are missing, by the report alone when it brings the last of them, and
not at all after that. The other frames change neither the disk nor the buffer nor the course of
the write. -/
theorem stores_payload_stream {command : Frame}
    (hcommand : Fis.ofWords command = .ok (.hostRegister r)) (hwrite : r.command = .writeDma)
    (hdisk : r.lba.toNat + r.sectorCount ≤ disk.sectors) {frames : List Frame}
    (hframes : ∀ frame ∈ frames, Fis.OpensNoWrite disk.sectors frame) :
    let total := r.sectorCount * sectorWords
    let start := r.lba.toNat * sectorWords
    let stream := Fis.payloads frames
    let final := (c.handleAll disk (command :: frames)).2.2
    (final.sectors = disk.sectors ∧
      (∀ i, final.words.get i =
        if start ≤ i ∧ i < start + min total stream.length then stream.getD (i - start) 0
        else disk.words.get i) ∧
      ∀ i, ¬(start ≤ i / 4 ∧ i / 4 < start + min total stream.length) →
        final.toBytes[i]? = disk.toBytes[i]?) ∧
    ∀ before frame later, frames = before ++ frame :: later →
      let sum := (Fis.payloads before).length
      let now := (c.handleAll disk (command :: before)).2
      let (replies, next) := now.1.handle now.2 frame
      match Fis.payload? frame with
      | some payload =>
        replies =
            (if total ≤ sum then [] else if sum + payload.length < total then [.dmaActivate]
              else [.deviceRegister (.complete r.lba r.sectorCount.toUInt16)]) ∧
          next.1.buffer = now.1.buffer
      | none => next = now := by
  intro total start stream final
  have hfinal : final = written disk r stream := by
    rw [show final = (c.handleAll disk (command :: frames)).2.2 from rfl,
      handleAll_opens hcommand hwrite hdisk hframes]
  refine ⟨?_, ?_⟩
  · rw [hfinal]
    exact ⟨rfl, get_written hdisk stream, fun i => getElem?_toBytes_written hdisk stream⟩
  · intro before frame later hsplit sum now
    subst hsplit
    have hbefore : ∀ f ∈ before, Fis.OpensNoWrite disk.sectors f :=
      fun f hf => hframes f (List.mem_append_left _ hf)
    have hframe : Fis.OpensNoWrite disk.sectors frame :=
      hframes frame (List.mem_append_right _ (List.mem_cons_self ..))
    have hnow : now = (c.writing r (Fis.payloads before), written disk r (Fis.payloads before)) :=
      handleAll_opens hcommand hwrite hdisk hbefore
    cases hpayload : Fis.payload? frame with
    | none =>
        have hframe' : Fis.OpensNoWrite now.2.sectors frame := by
          rw [hnow]
          exact hframe
        exact handle_of_opensNoWrite hframe' hpayload
    | some payload =>
        rw [hnow]
        dsimp only
        rw [handle_of_data (Fis.payload?_eq_some_iff.mp hpayload), handleData_writing hdisk]
        exact ⟨rfl, rfl⟩

/-- Sector 2 is written in three pieces, one of them empty and the last of them too long, with a
read beyond the end of the disk in between. -/
theorem stores_payload_stream_sector :
    let disk := Disk.zeroed 4
    let r : HostRegister := .ofCommand .writeDma 2 1
    let frames : List Frame :=
      [(Fis.data (List.replicate 100 7)).toWords, (Fis.data []).toWords,
        (Fis.hostRegister (.ofCommand .readDma 3 2)).toWords,
        (Fis.data (List.replicate 40 9)).toWords]
    let final := (CommandLayer.new.handleAll disk ((Fis.hostRegister r).toWords :: frames)).2.2
    Fis.ofWords (Fis.hostRegister r).toWords = .ok (.hostRegister r) ∧ r.command = .writeDma ∧
      r.lba.toNat + r.sectorCount ≤ disk.sectors ∧
      (∀ frame ∈ frames, Fis.OpensNoWrite disk.sectors frame) ∧
      final.words.get 356 = 9 ∧ final.words.get 384 = 0 := by
  intro disk r frames final
  have hcommand : Fis.ofWords (Fis.hostRegister r).toWords = .ok (.hostRegister r) := by
    rw [Fis.ofWords_hostRegister, and_addressMask (by decide)]
    rfl
  have hdisk : r.lba.toNat + r.sectorCount ≤ disk.sectors := by decide
  have hframes : ∀ frame ∈ frames, Fis.OpensNoWrite disk.sectors frame := by decide +kernel
  obtain ⟨⟨-, hwords, -⟩, -⟩ :=
    @stores_payload_stream .new disk r _ hcommand rfl hdisk frames hframes
  refine ⟨hcommand, rfl, hdisk, hframes, ?_, ?_⟩
  · rw [hwords]
    decide +kernel
  · rw [hwords]
    decide +kernel

end CommandLayer

end SerialAta
