import SerialAta.Proofs.Drive.WakeUp
import SerialAta.Proofs.Host.Conversation
import SerialAta.Proofs.Link.OpeningBurst
import SerialAta.Proofs.Phy.Bursts
/-!
# SerialAta.Proofs.Host.BringUp

**What it takes to bring the link up**, step by step (`bringUp_cost`): how many steps, and which
step limits are enough for them.

A drive that is new or has just been reset keeps nothing of its past but settings, sector buffer
and disk (`Host.Fresh`). From there every step is known. In electrical idle only the count of
idle steps and the two answers of the drive move, so the hosts of these steps are a family
(`Host.waking`), and bringing the link up is a path through it. Then only the link moves, and
its opening burst is another family (`Link.opening`). Every wait is some steps in vain and one
more, so its outcome is whether the step limit allows as many (`run_burst`, `run_exchange`).
-/

namespace SerialAta

/-! ### New drives and drives that have been reset -/

theorem Handshake.idleThreshold_listen (h : Handshake) (cominit comwake elecidle : Bool) :
    (h.listen cominit comwake elecidle).2.idleThreshold = h.idleThreshold := by
  unfold listen
  dsimp only
  repeat' split
  all_goals rfl

/-- The handshake has the settings of the link. -/
def Drive.Configured (d : Drive) : Prop :=
  d.handshake.idleThreshold = d.link.parameters.comresetIdleSteps

theorem Drive.Configured.txEdge {d : Drive} (h : d.Configured) (hreceived : d.link.received = [])
    (tx : HostSignals) : (d.txEdge tx).2.Configured := by
  have hlistened : (d.listened tx).Configured := (Handshake.idleThreshold_listen ..).trans h
  rcases d.txEdge_cases tx with ⟨-, htx⟩ | ⟨-, -, htx⟩ | ⟨-, -, htx⟩
  · rw [htx]
    exact h
  · rw [htx]
    exact hlistened
  · have hkeep : ((d.listened tx).stepLink tx.word).handshake = (d.listened tx).handshake :=
      stepLink_handshake (d := d.listened tx) hreceived tx.word
    rw [htx, Configured, parameters_stepLink, hkeep]
    exact hlistened

namespace Host

theorem Reachable.configured {h : Host} (hr : h.Reachable) : h.drive.Configured := by
  induction hr with
  | new parameters disk => rfl
  | setLimit _ _ ih => exact ih
  | cycle tx hr ih => exact ih.txEdge hr.settled.received tx
  | txEdge tx hr ih => exact ih.txEdge hr.settled.received tx
  | rxEdge _ ih => exact ih
  | @reset d _ _ _ ih => exact ih
  | setDisk _ _ ih => exact ih

/-- The drive is new, or has just been reset, whatever has been done to it before. Its disk may be
any. -/
def Fresh (h : Host) : Prop :=
  (∃ parameters disk, h.drive = .new parameters disk) ∨
    ∃ before : Host, before.Reachable ∧ ∃ disk, h.drive = { before.drive.reset with disk }

/-- A step with the reset signal leaves a fresh drive. -/
theorem Reachable.fresh_cycle {h : Host} (hr : h.Reachable) {tx : HostSignals}
    (hreset : tx.reset = true) : (h.cycle tx).2.Fresh := by
  refine .inr ⟨h, hr, h.drive.disk, ?_⟩
  show (h.drive.txEdge tx).2.rxEdge.2 = _
  rw [Drive.txEdge_reset hreset]
  rfl

/-- What is left of the past is no part of handshake and link. -/
theorem Fresh.drive {h : Host} (hf : h.Fresh) :
    h.drive.handshake = .new h.drive.link.parameters.comresetIdleSteps ∧
      h.drive.link = .new h.drive.link.parameters := by
  rcases hf with ⟨parameters, disk, hd⟩ | ⟨before, hr, disk, hd⟩
  · rw [hd]
    exact ⟨rfl, rfl⟩
  · rw [hd]
    exact ⟨congrArg Handshake.new hr.configured, rfl⟩

/-! ### The handshake -/

/-- The count of idle steps after so many of them. -/
def idleCount : Nat → UInt32
  | 0 => 0
  | n + 1 => Handshake.countIdle (idleCount n)

theorem toNat_idleCount (n : Nat) : (idleCount n).toNat = min n (UInt32.size - 1) := by
  induction n with
  | zero => rfl
  | succ n ih =>
      rw [idleCount, Handshake.toNat_countIdle, ih]
      omega

/-- The host after `n` steps in electrical idle, with the answers of its drive in these phases. -/
def waking (start : Host) (cominit comwake : BurstPhase) (n : Nat) : Host :=
  { drive :=
      { start.drive with
        handshake := { start.drive.handshake with idleSteps := idleCount n, cominit, comwake } }
    stepLimit := start.stepLimit
    steps := start.steps + n }

variable {start : Host} {cominit comwake cominit' comwake' : BurstPhase} {n : Nat}

@[simp] theorem stepLimit_waking :
    (start.waking cominit comwake n).stepLimit = start.stepLimit := rfl

@[simp] theorem steps_waking : (start.waking cominit comwake n).steps = start.steps + n := rfl

@[simp] theorem link_waking : (start.waking cominit comwake n).drive.link = start.drive.link := rfl

theorem cycle_waking (hup : ¬(cominit = .sent ∧ comwake = .sent)) {tx : HostSignals}
    (hreset : tx.reset = false) {heard : Bool}
    (hlisten : (start.waking cominit comwake n).drive.handshake.listen tx.cominit tx.comwake
      tx.elecidle = (heard, (start.waking cominit' comwake' (n + 1)).drive.handshake)) :
    (start.waking cominit comwake n).cycle tx =
      (({ comfinish := heard, ready := false },
        (start.waking cominit' comwake' (n + 1)).drive.rxEdge.1),
        start.waking cominit'.next comwake'.next (n + 1)) := by
  have hdone : (start.waking cominit comwake n).drive.handshake.isDone = false := by
    simpa [waking, Handshake.isDone] using hup
  have hdone' := Handshake.isDone_listen (start.waking cominit comwake n).drive.handshake
    tx.cominit tx.comwake tx.elecidle
  rw [hlisten, hdone] at hdone'
  simp only [Host.cycle, Drive.txEdge, hreset, hlisten, hdone']
  rfl

/-- After both answers the drive is up, and its link is the one that it had before. -/
theorem linked_waking (start : Host) (n : Nat) :
    (start.waking .sent .sent n).backdrop.Linked start.drive.link (start.waking .sent .sent n) := by
  have hready : (start.waking .sent .sent n).drive.isReady = true :=
    Handshake.isDone_iff.mpr ⟨rfl, rfl⟩
  exact linked hready

/-! ### The steps of the host -/

/-- COMINIT is driven before the host has idled for long enough. -/
theorem cycle_cominit_early (hn : n + 1 < max 1 start.drive.handshake.idleThreshold.toNat) :
    (start.waking .waiting .waiting n).cycle { HostSignals.electricalIdle with cominit := true } =
      (({ comfinish := false, ready := false },
        (start.waking .waiting .waiting (n + 1)).drive.rxEdge.1),
        start.waking .waiting .waiting (n + 1)) := by
  refine cycle_waking (by decide) rfl (Handshake.listen_of_neither ?_ ?_)
  · rintro ⟨-, -, hle⟩
    have hcount : (idleCount (n + 1)).toNat = min (n + 1) (UInt32.size - 1) := toNat_idleCount _
    have hle' : start.drive.handshake.idleThreshold.toNat ≤ (idleCount (n + 1)).toNat := hle
    omega
  · rintro ⟨hsent, -⟩
    cases hsent

/-- COMINIT is driven when the host has idled for long enough. -/
theorem cycle_cominit_due (hn : n + 1 = max 1 start.drive.handshake.idleThreshold.toNat) :
    (start.waking .waiting .waiting n).cycle { HostSignals.electricalIdle with cominit := true } =
      (({ comfinish := true, ready := false },
        (start.waking .detected .waiting (n + 1)).drive.rxEdge.1),
        start.waking .asserted .waiting (n + 1)) := by
  refine cycle_waking (by decide) rfl (Handshake.listen_of_comreset ⟨rfl, rfl, ?_⟩)
  have hlt := start.drive.handshake.idleThreshold.toNat_lt
  have hsize : UInt32.size = 4294967296 := rfl
  have hcount : (idleCount (n + 1)).toNat = min (n + 1) (UInt32.size - 1) := toNat_idleCount _
  rw [UInt32.le_iff_toNat_le]
  show start.drive.handshake.idleThreshold.toNat ≤ (idleCount (n + 1)).toNat
  omega

/-- COMWAKE is driven while the drive still answers COMRESET. -/
theorem cycle_comwake_early (start : Host) (n : Nat) :
    (start.waking .asserted .waiting n).cycle { HostSignals.electricalIdle with comwake := true } =
      (({ comfinish := false, ready := false },
        (start.waking .asserted .waiting (n + 1)).drive.rxEdge.1),
        start.waking .sent .waiting (n + 1)) :=
  cycle_waking (by decide) rfl rfl

/-- COMWAKE is driven when the answer to COMRESET is over. -/
theorem cycle_comwake_due (start : Host) (n : Nat) :
    (start.waking .sent .waiting n).cycle { HostSignals.electricalIdle with comwake := true } =
      (({ comfinish := true, ready := false },
        (start.waking .sent .detected (n + 1)).drive.rxEdge.1),
        start.waking .sent .asserted (n + 1)) :=
  cycle_waking (by decide) rfl rfl

/-- The answer to COMWAKE is over, and with it the handshake. -/
theorem cycle_ready (start : Host) (n : Nat) :
    (start.waking .sent .asserted n).cycle .electricalIdle =
      (({ comfinish := false, ready := false },
        (start.waking .sent .asserted (n + 1)).drive.rxEdge.1),
        start.waking .sent .sent (n + 1)) :=
  cycle_waking (by decide) rfl rfl

end Host

namespace HostM

variable {n : Nat}

/-- A burst that is acknowledged with its step after `n` others, and answered in the same step. -/
theorem run_burst {request answer : Operation} {tx : HostSignals} {signal : DriveSignals → Bool}
    (stage : Nat → Host) {shown : Nat → DriveSignals} {rx : DriveSignals} {h' : Host}
    (hearly : ∀ i < n, (stage i).cycle tx =
      (({ comfinish := false, ready := false }, shown i), stage (i + 1)))
    (hdue : (stage n).cycle tx = (({ comfinish := true, ready := false }, rx), h'))
    (hsignal : signal rx = true) :
    (burst request answer tx signal).run (stage 0) =
      if n < (stage 0).stepLimit then .ok () h'
      else .error (.timeout request (stage 0).stepLimit) (stage (stage 0).stepLimit) := by
  rw [burst, run_await_bind (b := rx) stage (fun i hi => run_cycle (hearly i hi)) ?_
    (run_cycle hdue) ?_, if_pos hsignal]
  · rfl
  · exact fun _ _ => rfl
  · rfl

variable {start : Host}

theorem run_comreset (hn : n + 1 = max 1 start.drive.handshake.idleThreshold.toNat) :
    (burst .comreset .cominit { HostSignals.electricalIdle with cominit := true } (·.cominit)).run
        (start.waking .waiting .waiting 0) =
      if n < start.stepLimit then .ok () (start.waking .asserted .waiting (n + 1))
      else
        .error (.timeout .comreset start.stepLimit)
          (start.waking .waiting .waiting start.stepLimit) :=
  run_burst (start.waking .waiting .waiting)
    (fun _ hi => Host.cycle_cominit_early (by omega)) (Host.cycle_cominit_due hn) rfl

theorem run_comwake (start : Host) (n : Nat) (hlimit : 1 ≤ start.stepLimit) :
    (burst .comwake .driveComwake { HostSignals.electricalIdle with comwake := true }
        (·.comwake)).run (start.waking .asserted .waiting n) =
      if 1 < start.stepLimit then .ok () (start.waking .sent .asserted (n + 2))
      else
        .error (.timeout .comwake start.stepLimit)
          (start.waking .sent .waiting (n + start.stepLimit)) := by
  let stage (i : Nat) := start.waking (if i = 0 then .asserted else .sent) .waiting (n + i)
  have hlast : stage start.stepLimit = start.waking .sent .waiting (n + start.stepLimit) := by
    simp only [stage, if_neg (Nat.ne_of_gt hlimit)]
  rw [← hlast]
  have hearly : ∀ i < 1, (stage i).cycle { HostSignals.electricalIdle with comwake := true } =
      (({ comfinish := false, ready := false },
        (start.waking .asserted .waiting (n + 1)).drive.rxEdge.1), stage (i + 1)) := by
    intro i hi
    obtain rfl : i = 0 := by omega
    exact Host.cycle_comwake_early start n
  exact run_burst stage hearly (Host.cycle_comwake_due start (n + 1)) rfl

theorem run_phyReady (hlimit : 1 ≤ start.stepLimit) :
    (awaitSignal .phyReady (·.phyReady)).run (start.waking .sent .asserted n) =
      .ok () (start.waking .sent .sent (n + 1)) :=
  run_await_first (run_cycle (Host.cycle_ready start n)) rfl hlimit

/-- Bringing the link up, from the first step to the last. -/
theorem run_bringUp (hn : n + 1 = max 1 start.drive.handshake.idleThreshold.toNat) :
    ∃ failed, bringUp.run (start.waking .waiting .waiting 0) =
      if 2 ≤ start.stepLimit ∧ n + 1 ≤ start.stepLimit then
        .ok () (start.waking .sent .sent (n + 4))
      else
        .error (.timeout (if start.stepLimit < n + 1 then .comreset else .comwake)
          start.stepLimit) failed := by
  have hfirst := run_comreset hn
  by_cases hcomreset : n < start.stepLimit
  · rw [if_pos hcomreset] at hfirst
    have hsecond := run_comwake start (n + 1) (by omega)
    by_cases hcomwake : 1 < start.stepLimit
    · rw [if_pos hcomwake] at hsecond
      refine ⟨start, ?_⟩
      rw [if_pos ⟨hcomwake, hcomreset⟩, bringUp, run_bind_ok hfirst, run_bind_ok hsecond]
      exact run_phyReady (by omega)
    · rw [if_neg hcomwake] at hsecond
      refine ⟨start.waking .sent .waiting (n + 1 + start.stepLimit), ?_⟩
      rw [if_neg fun hlong => hcomwake hlong.1, if_neg (by omega : ¬start.stepLimit < n + 1),
        bringUp, run_bind_ok hfirst, run_bind_error hsecond]
  · rw [if_neg hcomreset] at hfirst
    refine ⟨start.waking .waiting .waiting start.stepLimit, ?_⟩
    rw [if_neg fun hlong => hcomreset hlong.2, if_pos (by omega : start.stepLimit < n + 1),
      bringUp, run_bind_error hfirst]

/-! ### Waiting for the link -/

theorem run_sendPrimitive (h : Host) (p : Primitive) (i : Nat) :
    (sendPrimitive p).run (h.after (List.replicate i (.ofPrimitive p))) =
      .ok ((h.after (List.replicate i (.ofPrimitive p))).hears (.ofPrimitive p))
        (h.after (List.replicate (i + 1) (.ofPrimitive p))) := by
  rw [List.replicate_succ', Host.after_append]
  rfl

/-- A primitive that is answered by another one for `n` steps and then by the one waited for. -/
theorem run_exchange {operation : Operation} {mine theirs : Primitive} {h : Host}
    (hearly : ∀ i < n, ((h.after (List.replicate i (.ofPrimitive mine))).hears
      (.ofPrimitive mine)).carries theirs = false)
    (hlast : ((h.after (List.replicate n (.ofPrimitive mine))).hears
      (.ofPrimitive mine)).carries theirs = true) :
    (exchange operation mine theirs).run h =
      if n < h.stepLimit then .ok () (h.after (List.replicate (n + 1) (.ofPrimitive mine)))
      else
        .error (.timeout operation h.stepLimit)
          (h.after (List.replicate h.stepLimit (.ofPrimitive mine))) :=
  run_await (fun i => h.after (List.replicate i (.ofPrimitive mine)))
    (fun i _ => run_sendPrimitive h mine i) (fun i hi => by simp [hearly i hi])
    (run_sendPrimitive h mine n) (by simp [hlast])

section Opening

variable {b : Backdrop} {parameters : LinkParameters} {up : Host} {hosts : List PhyWord}

theorem linked_opening (hl : b.Linked (.new parameters) up) (hlength : hosts.length = n)
    (hn : n ≤ max 1 parameters.alignCount.toNat) :
    b.Linked (.opening parameters n) (up.after hosts) := by
  have hafter : (Link.new parameters).after hosts = .opening parameters n := by
    rw [← Link.opening_zero, Link.after_opening (by omega), Nat.zero_add, hlength]
  have hreceived : ((Link.new parameters).after hosts).received = [] := by
    rw [hafter]
    rfl
  have hlinked := (hl.after_words rfl hreceived).1
  rwa [hafter] at hlinked

/-- The link drives ALIGN throughout its opening burst, and SYNC after it. -/
theorem hears_opening (hl : b.Linked (.new parameters) up) (hlength : hosts.length = n)
    (hn : n ≤ max 1 parameters.alignCount.toNat) (word : PhyWord) :
    (up.after hosts).hears word =
      .ofPrimitive (if n < max 1 parameters.alignCount.toNat then .align else .sync) := by
  rw [(linked_opening hl hlength hn).hears rfl]
  split
  · next hmore => rw [Link.step_opening hmore]
  · next hend =>
    obtain rfl : n = max 1 parameters.alignCount.toNat := by omega
    rw [Link.step_idle (Link.state_opening_end parameters)]

/-- Waiting for the link after bringing it up, in full. -/
theorem run_awaitIdle (hl : b.Linked (.new parameters) up) :
    awaitIdle.run up =
      if max 1 parameters.alignCount.toNat < up.stepLimit then
        .ok () (up.after (List.replicate (max 1 parameters.alignCount.toNat + 1)
          (.ofPrimitive .sync)))
      else
        .error (.timeout .linkIdle up.stepLimit)
          (up.after (List.replicate up.stepLimit (.ofPrimitive .sync))) := by
  refine run_exchange (fun i hi => ?_) ?_
  · rw [hears_opening hl List.length_replicate (Nat.le_of_lt hi), if_pos hi]
    rfl
  · rw [hears_opening hl List.length_replicate (Nat.le_refl _), if_neg (Nat.lt_irrefl _)]
    rfl

/-- The SYNC that ends the wait leaves the link idle. -/
theorem state_after_awaitIdle (hl : b.Linked (.new parameters) up) :
    (up.after (List.replicate (max 1 parameters.alignCount.toNat + 1)
      (.ofPrimitive .sync))).drive.link.state = .idle := by
  have hlast := linked_opening hl
    (@List.length_replicate PhyWord (max 1 parameters.alignCount.toNat) (.ofPrimitive .sync))
    (Nat.le_refl _)
  have hstate := Link.state_opening_end parameters
  have hnone := Link.accepted?_of_ne_rcvEof
    (l := .opening parameters (max 1 parameters.alignCount.toNat)) (by rw [hstate]; decide)
    (.ofPrimitive .sync)
  rw [List.replicate_succ', Host.after_append, (hlast.after_word rfl hnone).2.1.link,
    Link.step_idle hstate]
  rfl

end Opening

end HostM

namespace Host

theorem Fresh.eq_waking {h : Host} (hf : h.Fresh) : h = h.waking .waiting .waiting 0 := by
  obtain ⟨d, limit, steps⟩ := h
  obtain ⟨handshake, link, commands, disk, output, last⟩ := d
  obtain rfl : handshake = .new link.parameters.comresetIdleSteps := hf.drive.1
  rfl

/-- **What it takes to bring the link up**, with a drive that is new or has just been reset. The
host needs its step limit to be two and as long as the run of idle steps that makes a COMRESET,
then it takes three steps more than that run has, which is one long at least. Then the link has
not begun. To wait for it takes the ALIGN words of its opening burst, one at least, and one step
more, if the limit allows as many. A wait that fails has taken all the steps of the limit. -/
theorem bringUp_cost {h : Host} (hfresh : h.Fresh) :
    let k := h.drive.link.parameters.comresetIdleSteps.toNat
    let a := h.drive.link.parameters.alignCount.toNat
    let limit := h.stepLimit
    ((∃ up, HostM.bringUp.run h = .ok () up) ↔ 2 ≤ limit ∧ max 1 k ≤ limit) ∧
      (∀ cause up, HostM.bringUp.run h = .error cause up →
        cause = .timeout (if limit < max 1 k then .comreset else .comwake) limit) ∧
      ∀ up, HostM.bringUp.run h = .ok () up →
        up.steps = h.steps + (max 1 k + 3) ∧ up.drive.isReady = true ∧
        up.drive.link = h.drive.link ∧ up.drive.link.state = .sendAlign 0 ∧
        ((∃ h', HostM.awaitIdle.run up = .ok () h') ↔ max 1 a + 1 ≤ limit) ∧
        (∀ cause h', HostM.awaitIdle.run up = .error cause h' →
          cause = .timeout .linkIdle limit) ∧
        (∀ h', HostM.awaitIdle.run up = .ok () h' →
          h' = up.after (List.replicate (max 1 a + 1) (.ofPrimitive .sync)) ∧
          h'.steps = up.steps + (max 1 a + 1) ∧ h'.drive.link.state = .idle) ∧
        ∀ i < max 1 a, (up.after (List.replicate i (.ofPrimitive .sync))).hears
          (.ofPrimitive .sync) = .ofPrimitive .align := by
  intro k a limit
  obtain ⟨hhandshake, hlink⟩ := hfresh.drive
  have hk : h.drive.handshake.idleThreshold.toNat = k := by rw [hhandshake]; rfl
  obtain ⟨n, hn⟩ : ∃ n, n + 1 = max 1 k := ⟨max 1 k - 1, by omega⟩
  have hlast : n + 1 = max 1 h.drive.handshake.idleThreshold.toNat := by rw [hk, hn]
  obtain ⟨failed, hrun⟩ := HostM.run_bringUp hlast
  rw [← hfresh.eq_waking, hn] at hrun
  obtain ⟨hok, herror, hup⟩ := HostM.outcome_of_run hrun
  refine ⟨hok, herror, fun up hrunUp => ?_⟩
  obtain rfl := hup up hrunUp
  -- The link behind the handshake has not begun.
  have hl := h.linked_waking (n + 4)
  have hready := hl.isReady
  rw [hlink] at hl
  have hrunIdle := HostM.run_awaitIdle hl
  rw [stepLimit_waking] at hrunIdle
  obtain ⟨hwait, htimeout, hidle⟩ := HostM.outcome_of_run hrunIdle
  refine ⟨?_, hready, link_waking, ?_, hwait, htimeout, fun h' hrun' => ?_, fun i hi => ?_⟩
  · rw [steps_waking, ← hn]
  · rw [link_waking, hlink]
    rfl
  · obtain rfl := hidle h' hrun'
    exact ⟨rfl, by rw [steps_after, List.length_replicate], HostM.state_after_awaitIdle hl⟩
  · rw [HostM.hears_opening hl List.length_replicate (Nat.le_of_lt hi), if_pos hi]

/-- Seven steps bring the link up and three more begin it, for a drive that wants four idle steps
and sends two ALIGN words. Four steps are enough for every wait. -/
theorem bringUp_cost_short :
    let parameters := { LinkParameters.standard with comresetIdleSteps := 4, alignCount := 2 }
    let h : Host := { Host.new (.new parameters (.zeroed 1)) with stepLimit := 4 }
    h.Fresh ∧ ∃ up h', HostM.bringUp.run h = .ok () up ∧ HostM.awaitIdle.run up = .ok () h' ∧
      up.steps = 7 ∧ h'.steps = 10 ∧ h'.drive.link.state = .idle := by
  intro parameters h
  have hfresh : h.Fresh := .inl ⟨parameters, .zeroed 1, rfl⟩
  obtain ⟨hup, -, hafter⟩ := bringUp_cost hfresh
  obtain ⟨up, hrun⟩ := hup.mpr ⟨by decide, by decide⟩
  obtain ⟨hsteps, -, -, -, hwait, -, hidle, -⟩ := hafter up hrun
  obtain ⟨h', hrun'⟩ := hwait.mpr (by decide)
  obtain ⟨-, hsteps', hstate⟩ := hidle h' hrun'
  refine ⟨hfresh, up, h', hrun, hrun', hsteps, ?_, hstate⟩
  rw [hsteps', hsteps]
  rfl

end Host

end SerialAta
