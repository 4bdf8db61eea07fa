import SerialAta.Host.Transfers
import SerialAta.Proofs.Host.Replies
/-!
# SerialAta.Proofs.Host.StepBounds

**How many steps a program takes**, and what the host says in them, whether it succeeds or fails.

`HostM.Within limit p x h bound` means: if `h` has this step limit, `x` does nothing to it but take
steps, `bound` of them at most and all with signals that have `p`, and a timeout of it tells the
limit. A wait has the limit for its bound, one word has one, and a program that follows another has
what that leaves of the bound (`Within.bind`). No state of the drive is looked at, so the bounds
hold for every host; only that of a read depends on the frames that are pending when its loop
begins.
-/

namespace SerialAta

namespace Host

/-! ### Signals given -/

/-- The host after full steps with the given signals. -/
def through (h : Host) (signals : List HostSignals) : Host :=
  signals.foldl (fun h tx => (h.cycle tx).2) h

theorem through_append (h : Host) (us ws : List HostSignals) :
    h.through (us ++ ws) = (h.through us).through ws :=
  List.foldl_append

theorem after_eq_through (h : Host) (words : List PhyWord) :
    h.after words = h.through (words.map .ofWord) := by
  rw [through, List.foldl_map]
  rfl

theorem stepLimit_through (h : Host) (signals : List HostSignals) :
    (h.through signals).stepLimit = h.stepLimit := by
  induction signals generalizing h with
  | nil => rfl
  | cons tx signals ih => exact ih _

theorem steps_through (h : Host) (signals : List HostSignals) :
    (h.through signals).steps = h.steps + signals.length := by
  induction signals generalizing h with
  | nil => rfl
  | cons tx signals ih =>
      have hone : (h.cycle tx).2.steps = h.steps + 1 := rfl
      rw [List.length_cons, ← Nat.add_assoc, Nat.add_right_comm, ← hone]
      exact ih _

end Host

namespace HostM

variable {α β : Type} {limit m n : Nat} {p : HostSignals → Prop} {x : HostM α} {f : α → HostM β}
  {h : Host}

/-- From a host with this step limit the program takes steps with signals that have `p`, no more
than `bound`, and a timeout of it tells the limit. -/
def Within (limit : Nat) (p : HostSignals → Prop) (x : HostM α) (h : Host) (bound : Nat) : Prop :=
  h.stepLimit = limit →
    (∃ signals, x.leaves h = h.through signals ∧ (∀ tx ∈ signals, p tx) ∧
      signals.length ≤ bound) ∧
    ∀ operation steps h', x.run h = .error (.timeout operation steps) h' → steps = limit

/-- Run on `h`, the program takes no more than `bound` steps, and a timeout of it tells the step
limit. -/
structure EndsWithin (x : HostM α) (h : Host) (bound : Nat) : Prop where
  steps : (x.leaves h).steps ≤ h.steps + bound
  timeout : ∀ operation steps h', x.run h = .error (.timeout operation steps) h' →
    steps = h.stepLimit

theorem Within.endsWithin (hx : Within h.stepLimit p x h n) : x.EndsWithin h n := by
  obtain ⟨⟨signals, hleaves, -, hlength⟩, htimeout⟩ := hx rfl
  refine ⟨?_, htimeout⟩
  rw [hleaves, Host.steps_through]
  exact Nat.add_le_add_left hlength _

/-! ### How programs are put together -/

theorem Within.mono (hx : Within limit p x h m) (hle : m ≤ n) : Within limit p x h n := by
  intro hlimit
  obtain ⟨⟨signals, hleaves, hsignals, hlength⟩, htimeout⟩ := hx hlimit
  exact ⟨⟨signals, hleaves, hsignals, Nat.le_trans hlength hle⟩, htimeout⟩

theorem Within.imp {q : HostSignals → Prop} (hx : Within limit p x h n) (hpq : ∀ tx, p tx → q tx) :
    Within limit q x h n := by
  intro hlimit
  obtain ⟨⟨signals, hleaves, hsignals, hlength⟩, htimeout⟩ := hx hlimit
  exact ⟨⟨signals, hleaves, fun tx htx => hpq tx (hsignals tx htx), hlength⟩, htimeout⟩

theorem Within.pure (a : α) : Within limit p (Pure.pure a) h n :=
  fun _ => ⟨⟨[], rfl, fun _ hw => absurd hw List.not_mem_nil, Nat.zero_le _⟩,
    fun _ _ _ hrun => (by cases hrun)⟩

/-- A failure that is no timeout, or one that tells the limit. -/
theorem Within.failure {e : HostError}
    (he : ∀ operation steps, e = .timeout operation steps → steps = limit) :
    Within limit p (throw e : HostM α) h n :=
  fun _ => ⟨⟨[], rfl, fun _ hw => absurd hw List.not_mem_nil, Nat.zero_le _⟩,
    fun operation steps _ hrun => he operation steps (EStateM.Result.error.inj hrun).1⟩

theorem Within.timeout (operation : Operation) :
    Within limit p (throw (HostError.timeout operation limit) : HostM α) h n :=
  .failure fun _ _ he => (HostError.timeout.inj he).2.symm

theorem Within.cycle {tx : HostSignals} (htx : p tx) : Within limit p (cycle tx) h 1 :=
  fun _ => ⟨⟨[tx], rfl, fun _ hw => List.mem_singleton.mp hw ▸ htx, Nat.le_refl _⟩,
    fun _ _ _ hrun => (by cases hrun)⟩

/-- A program that begins with a look at the host. -/
theorem Within.read {f : Host → HostM β} (hf : h.stepLimit = limit → Within limit p (f h) h n) :
    Within limit p (get >>= f) h n :=
  fun hlimit => hf hlimit hlimit

/-- What comes second is run on the host that the first has left, if it has not failed, and in the
steps that it has left. -/
theorem Within.bind (hx : Within limit p x h m) (hle : m ≤ n)
    (hf : ∀ a h₁, x.run h = .ok a h₁ → Within limit p (f a) h₁ (n - m)) :
    Within limit p (x >>= f) h n := by
  intro hlimit
  obtain ⟨⟨signals, hleaves, hsignals, hlength⟩, htimeout⟩ := hx hlimit
  cases hrun : x.run h with
  | error e h₁ =>
      have hwhole := run_bind_error (f := f) hrun
      refine ⟨⟨signals, ?_, hsignals, Nat.le_trans hlength hle⟩,
        fun operation steps h' herror => ?_⟩
      · rw [leaves_of_error hwhole, ← hleaves, leaves_of_error hrun]
      · obtain ⟨rfl, rfl⟩ := EStateM.Result.error.inj (hwhole.symm.trans herror)
        exact htimeout operation steps _ hrun
  | ok a h₁ =>
      have hwhole := run_bind_ok (f := f) hrun
      rw [leaves_of_ok hrun] at hleaves
      obtain ⟨⟨signals', hleaves', hsignals', hlength'⟩, htimeout'⟩ :=
        hf a h₁ hrun (by rw [hleaves, Host.stepLimit_through, hlimit])
      refine ⟨⟨signals ++ signals', ?_, ?_, ?_⟩, fun operation steps h' herror => ?_⟩
      · rw [Host.through_append, ← hleaves, ← hleaves', leaves, leaves, hwhole]
      · intro tx htx
        exact (List.mem_append.mp htx).elim (hsignals tx) (hsignals' tx)
      · rw [List.length_append]
        omega
      · exact htimeout' operation steps h' (hwhole.symm.trans herror)

theorem Within.poll {operation : Operation} {stop : α → Option β}
    (hx : ∀ h, Within limit p x h 1) (left : Nat) :
    Within limit p (poll operation x stop limit left) h left := by
  induction left generalizing h with
  | zero => exact .timeout operation
  | succ left ih =>
      refine (hx h).bind (Nat.le_add_left ..) fun a h₁ _ => ?_
      cases stop a with
      | none => exact ih
      | some result => exact .pure result

/-- A wait takes as many steps as the host allows, at most. -/
theorem Within.await {operation : Operation} {stop : α → Option β}
    (hx : ∀ h, Within limit p x h 1) : Within limit p (await operation x stop) h limit := by
  refine .read fun hlimit => ?_
  rw [hlimit]
  exact .poll hx limit

/-! ### Bringing the link up -/

theorem burst_within (request answer : Operation) (tx : HostSignals)
    (signal : DriveSignals → Bool) :
    Within limit (fun _ => True) (burst request answer tx signal) h (2 * limit) := by
  refine (Within.await fun _ => .cycle trivial).bind (by omega) fun rx h₁ _ => ?_
  split
  · exact .pure ()
  · exact (Within.await fun _ => .cycle trivial).mono (by omega)

theorem bringUp_within : Within limit (fun _ => True) bringUp h (5 * limit) := by
  refine (burst_within _ _ _ _).bind (by omega) fun _ h₁ _ => ?_
  refine (burst_within _ _ _ _).bind (by omega) fun _ h₂ _ => ?_
  exact (Within.await fun _ => .cycle trivial).mono (by omega)

/-! ### Frames -/

section Frames

variable {operation : Operation} {mine theirs : Primitive}

theorem send_within {word : PhyWord} (hword : p (.ofWord word)) :
    Within limit p (send word) h 1 :=
  (Within.cycle hword).bind (Nat.le_refl _) fun _ _ _ => .pure _

theorem exchange_within (hmine : p (.ofWord (.ofPrimitive mine))) :
    Within limit p (exchange operation mine theirs) h limit :=
  .await fun _ => send_within hmine

theorem sendWords_within (words : List UInt32) :
    Within limit (fun _ => True) (sendWords words) h words.length := by
  induction words generalizing h with
  | nil => exact .pure ()
  | cons word words ih =>
      exact (send_within trivial).bind (Nat.le_add_left ..) fun _ _ _ => ih

/-- Two waits, the wire words, start and end of the frame and the SYNC after it. -/
theorem sendFrame_within (frame : Frame) :
    Within limit (fun _ => True) (sendFrame frame) h (2 * limit + frame.length + 4) := by
  have hlength := WireCoder.length_wireForm frame
  refine (exchange_within trivial).bind (by omega) fun _ _ _ => ?_
  refine (send_within trivial).bind (by omega) fun _ _ _ => ?_
  refine (sendWords_within _).bind (by omega) fun _ _ _ => ?_
  refine (send_within trivial).bind (by omega) fun _ _ _ => ?_
  refine (Within.await fun _ => send_within trivial).bind (by omega) fun verdict _ _ => ?_
  exact (send_within trivial).bind (by omega) fun _ _ _ => .pure verdict

theorem collect_within (hp : p (.ofWord (.ofPrimitive .rIp))) (wire : Array UInt32) (left : Nat) :
    Within limit p (collect limit wire left) h left := by
  induction left generalizing h wire with
  | zero => exact .timeout .frameEnd
  | succ left ih =>
      refine (send_within hp).bind (Nat.le_add_left ..) fun word _ _ => ?_
      split
      · exact .pure _
      · split
        · exact ih wire
        · exact ih _

end Frames

/-! ### Programs that listen -/

/-- A word that does not ask the drive to get ready for a frame. -/
def Listens (tx : HostSignals) : Prop :=
  ∃ word : PhyWord, tx = .ofWord word ∧ word.asPrimitive? ≠ some .xRdy

theorem listens_ofPrimitive {q : Primitive} (hq : q ≠ .xRdy) :
    Listens (.ofWord (.ofPrimitive q)) := by
  refine ⟨_, rfl, fun h => ?_⟩
  rw [PhyWord.asPrimitive?_ofPrimitive] at h
  exact hq (Option.some.inj h)

theorem exists_words_of_listens {signals : List HostSignals} (hs : ∀ tx ∈ signals, Listens tx) :
    ∃ words : List PhyWord, signals = words.map .ofWord ∧
      ∀ w ∈ words, w.asPrimitive? ≠ some .xRdy := by
  induction signals with
  | nil => exact ⟨[], rfl, fun _ hw => absurd hw List.not_mem_nil⟩
  | cons tx signals ih =>
      obtain ⟨word, rfl, hword⟩ := hs tx (List.mem_cons_self ..)
      obtain ⟨words, rfl, hwords⟩ := ih fun tx htx => hs tx (List.mem_cons_of_mem _ htx)
      exact ⟨word :: words, rfl, List.forall_mem_cons.mpr ⟨hword, hwords⟩⟩

theorem awaitIdle_within : Within limit Listens awaitIdle h limit :=
  exchange_within (listens_ofPrimitive (by decide))

/-- Three waits and the verdict; nothing that is said meanwhile asks for more than an answer. -/
theorem receiveFrame_within : Within limit Listens receiveFrame h (3 * limit + 1) := by
  have hsync : Listens (.ofWord (.ofPrimitive .sync)) := listens_ofPrimitive (by decide)
  have hrRdy : Listens (.ofWord (.ofPrimitive .rRdy)) := listens_ofPrimitive (by decide)
  have hrIp : Listens (.ofWord (.ofPrimitive .rIp)) := listens_ofPrimitive (by decide)
  refine (exchange_within hsync).bind (by omega) fun _ _ _ => ?_
  refine (exchange_within hrRdy).bind (by omega) fun _ _ _ => ?_
  refine .read fun hlimit => ?_
  rw [hlimit]
  refine (collect_within hrIp _ _).bind (by omega) fun wire _ _ => ?_
  refine (send_within ?_).bind (by omega) fun _ _ _ => .pure _
  split
  · exact listens_ofPrimitive (by decide)
  · exact listens_ofPrimitive (by decide)

/-- A failure over what has come. -/
theorem Within.unexpected (expected : Expectation) (got : Fis) :
    Within limit p (unexpected expected got : HostM α) h n :=
  .failure fun _ _ he => (by cases he)

theorem receiveFis_within : Within limit Listens receiveFis h (3 * limit + 1) := by
  refine receiveFrame_within.bind (Nat.le_refl _) fun frame _ _ => ?_
  split
  · split
    · exact .pure _
    · exact .failure fun _ _ he => (by cases he)
  · exact .failure fun _ _ he => (by cases he)

theorem receiveReport_within : Within limit Listens receiveReport h (3 * limit + 1) := by
  refine receiveFis_within.bind (Nat.le_refl _) fun fis _ _ => ?_
  split
  · exact .pure _
  · exact .unexpected _ _

theorem receivePioSetup_within : Within limit Listens receivePioSetup h (3 * limit + 1) := by
  refine receiveFis_within.bind (Nat.le_refl _) fun fis _ _ => ?_
  split
  · exact .pure _
  · exact .unexpected _ _

theorem receivePayloads_within (words : List UInt32) (frames : Nat) :
    Within limit Listens (receivePayloads words frames) h (frames * (3 * limit + 1)) := by
  induction frames generalizing h words with
  | zero => exact .read fun hlimit => .failure fun _ _ he => (HostError.timeout.inj he).2 ▸ hlimit
  | succ frames ih =>
      rw [Nat.add_one_mul]
      refine receiveFis_within.bind (Nat.le_add_left ..) fun fis _ _ => ?_
      rw [Nat.add_sub_cancel]
      split
      · exact ih _
      · exact .pure _
      · exact .unexpected _ _

/-! ### Commands -/

theorem sendFis_within (fis : Fis) :
    Within limit (fun _ => True) (sendFis fis) h (2 * limit + fis.toWords.length + 4) := by
  refine (sendFrame_within _).bind (Nat.le_refl _) fun good _ _ => ?_
  split
  · exact .pure ()
  · exact .failure fun _ _ he => (by cases he)

theorem sendCommand_within (command : HostRegister) :
    Within limit (fun _ => True) (sendFis (.hostRegister command)) h (2 * limit + 9) :=
  sendFis_within _

theorem sendData_within (payload : List UInt32) :
    Within limit (fun _ => True) (sendFis (.data payload)) h (2 * limit + payload.length + 5) := by
  have hlength : (Fis.data payload).toWords.length = payload.length + 1 := rfl
  exact (sendFis_within _).mono (by rw [hlength]; omega)

/-- For each payload a DMA Activate and a data FIS, and the report in the end. -/
theorem sendPayloads_within (payloads : List (List UInt32)) :
    Within limit (fun _ => True) (sendPayloads payloads) h
      (payloads.length * (5 * limit + 6) + payloads.flatten.length + (3 * limit + 1)) := by
  induction payloads generalizing h with
  | nil => exact (receiveReport_within.imp fun _ _ => trivial).mono (by omega)
  | cons payload payloads ih =>
      rw [List.length_cons, Nat.add_one_mul, List.flatten_cons, List.length_append]
      refine (receiveFis_within.imp fun _ _ => trivial).bind (by omega) fun fis _ _ => ?_
      split
      · exact (sendData_within payload).bind (by omega) fun _ _ _ => ih.mono (by omega)
      · exact .pure _
      · exact .unexpected _ _

theorem writeSectors_within (lba : UInt64) (words : List UInt32) :
    Within limit (fun _ => True) (writeSectors lba words) h
      ((chunks maxDataWords words).length * (5 * limit + 6) + words.length + (5 * limit + 10)) := by
  have hdata := fun h => @sendPayloads_within limit h (chunks maxDataWords words)
  rw [flatten_chunks (by decide)] at hdata
  exact (sendCommand_within _).bind (by omega) fun _ h₁ _ => (hdata h₁).mono (by omega)

theorem writeBuffer_within (words : List UInt32) :
    Within limit (fun _ => True) (writeBuffer words) h (10 * limit + words.length + 16) := by
  refine (sendCommand_within _).bind (by omega) fun _ _ _ => ?_
  refine (receivePioSetup_within.imp fun _ _ => trivial).bind (by omega) fun _ _ _ => ?_
  refine (sendData_within words).bind (by omega) fun _ _ _ => ?_
  exact (receiveReport_within.imp fun _ _ => trivial).mono (by omega)

theorem readBuffer_within : Within limit (fun _ => True) readBuffer h (8 * limit + 11) := by
  refine (sendCommand_within _).bind (by omega) fun _ _ _ => ?_
  refine (receivePioSetup_within.imp fun _ _ => trivial).bind (by omega) fun _ _ _ => ?_
  refine (receiveFis_within.imp fun _ _ => trivial).bind (by omega) fun fis _ _ => ?_
  split
  · exact .pure _
  · exact .unexpected _ _

/-- Each pass of a read takes one wait for a frame at most, and there is room for one pass more
than frames are pending after the command. -/
theorem readSectors_within (lba : UInt64) (count : UInt8) :
    let h₁ := (sendFis (.hostRegister (.ofCommand .readDma lba count))).leaves h
    Within limit (fun _ => True) (readSectors lba count) h
      (2 * limit + 9 + (h₁.drive.link.pending + 1) * (3 * limit + 1)) := by
  intro h₁
  refine (sendCommand_within _).bind (Nat.le_add_right ..) fun _ h' hrun => ?_
  obtain rfl : h₁ = h' := leaves_of_ok hrun
  rw [Nat.add_sub_cancel_left]
  exact .read fun _ => (receivePayloads_within [] _).imp fun _ _ => trivial

end HostM

end SerialAta
