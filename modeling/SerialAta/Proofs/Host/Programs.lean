import SerialAta.Host.Basic
import SerialAta.Proofs.Drive.Edges
/-!
# SerialAta.Proofs.Host.Programs

**What a program of the host does**, as a triple that says that it succeeds, or how it fails.

`HostM.Does x P a Q` means: run on any host with `P`, the program `x` gives `a` and leaves a
host with `Q`. `HostM.Fails x P e Q` says the same of a failure with `e`. Programs are put together
from sending words, and one word is one step of the link (`send_does`, `send_does_accepting`). The
rest of the drive, its `Backdrop`, changes only when the link accepts a frame.

Where all hosts of a wait are known, round by round, its run is told by one `if` on the step limit
(`run_await`).
-/

namespace SerialAta

namespace HostM

variable {α β : Type} {P Q R : Host → Prop} {a : α} {b : β}

/-! ### Triples -/

/-- Run on a host with `P`, the program gives `a` and leaves a host with `Q`. -/
def Does (x : HostM α) (P : Host → Prop) (a : α) (Q : Host → Prop) : Prop :=
  ∀ h, P h → ∃ h', x.run h = .ok a h' ∧ Q h'

theorem Does.pure (a : α) (P : Host → Prop) : Does (Pure.pure a) P a P :=
  fun h hp => ⟨h, rfl, hp⟩

theorem Does.bind {x : HostM α} {f : α → HostM β} (hx : Does x P a Q) (hf : Does (f a) Q b R) :
    Does (x >>= f) P b R := by
  intro h hp
  obtain ⟨h', hrun, hq⟩ := hx h hp
  obtain ⟨h'', hrun', hr⟩ := hf h' hq
  refine ⟨h'', ?_, hr⟩
  rw [EStateM.run_bind, hrun]
  exact hrun'

/-- A program that begins with a look at the host. -/
theorem Does.read {f : Host → HostM β} (hf : ∀ h, P h → Does (f h) P b Q) :
    Does (get >>= f) P b Q :=
  fun h hp => hf h hp h hp

/-- Run on a host with `P`, the program fails with `e` and leaves a host with `Q`. -/
def Fails (x : HostM α) (P : Host → Prop) (e : HostError) (Q : Host → Prop) : Prop :=
  ∀ h, P h → ∃ h', x.run h = .error e h' ∧ Q h'

theorem Fails.throw (e : HostError) (P : Host → Prop) : Fails (throw e : HostM α) P e P :=
  fun h hp => ⟨h, rfl, hp⟩

/-- What comes after a failure does not matter. -/
theorem Fails.bind {x : HostM α} {f : α → HostM β} {e : HostError} (hx : Fails x P e Q) :
    Fails (x >>= f) P e Q := by
  intro h hp
  obtain ⟨h', hrun, hq⟩ := hx h hp
  refine ⟨h', ?_, hq⟩
  rw [EStateM.run_bind, hrun]

theorem Does.bind_fails {x : HostM α} {f : α → HostM β} {e : HostError} (hx : Does x P a Q)
    (hf : Fails (f a) Q e R) : Fails (x >>= f) P e R := by
  intro h hp
  obtain ⟨h', hrun, hq⟩ := hx h hp
  obtain ⟨h'', hrun', hr⟩ := hf h' hq
  refine ⟨h'', ?_, hr⟩
  rw [EStateM.run_bind, hrun]
  exact hrun'

/-! ### Programs run on one host -/

section Run

variable {x : HostM α} {f : α → HostM β} {h h' : Host} {e : HostError}

theorem run_bind_ok (hx : x.run h = .ok a h') : (x >>= f).run h = (f a).run h' := by
  rw [EStateM.run_bind, hx]

theorem run_bind_error (hx : x.run h = .error e h') : (x >>= f).run h = .error e h' := by
  rw [EStateM.run_bind, hx]

/-- A program that succeeds just under a condition. -/
theorem outcome_of_run {up failed : Host} {c : Prop} [Decidable c]
    (hrun : x.run h = if c then .ok a up else .error e failed) :
    ((∃ h', x.run h = .ok a h') ↔ c) ∧ (∀ cause h', x.run h = .error cause h' → cause = e) ∧
      ∀ h', x.run h = .ok a h' → h' = up := by
  by_cases hc : c
  · rw [if_pos hc] at hrun
    rw [hrun]
    refine ⟨⟨fun _ => hc, fun _ => ⟨up, rfl⟩⟩, fun _ _ herror => ?_, fun h' hok => ?_⟩
    · cases herror
    · exact (EStateM.Result.ok.inj hok).2.symm
  · rw [if_neg hc] at hrun
    rw [hrun]
    refine ⟨⟨fun ⟨_, hok⟩ => ?_, fun h => absurd h hc⟩, fun _ _ herror => ?_, fun _ hok => ?_⟩
    · cases hok
    · exact (EStateM.Result.error.inj herror).1.symm
    · cases hok

theorem run_cycle {tx : HostSignals} {heard : TxReply × DriveSignals}
    (hcycle : h.cycle tx = (heard, h')) : (cycle tx).run h = .ok heard h' := by
  show EStateM.Result.ok (h.cycle tx).1 (h.cycle tx).2 = _
  rw [hcycle]

end Run

/-! ### Waiting -/

section Waiting

variable {operation : Operation} {act : HostM α} {stop : α → Option β} {limit left : Nat}

theorem Does.poll_stop (hact : Does act P a Q) (hstop : stop a = some b) :
    Does (poll operation act stop limit (left + 1)) P b Q := by
  refine hact.bind ?_
  rw [hstop]
  exact .pure b Q

theorem Does.poll_next (hact : Does act P a Q) (hstop : stop a = none)
    (hrest : Does (poll operation act stop limit left) Q b R) :
    Does (poll operation act stop limit (left + 1)) P b R := by
  refine hact.bind ?_
  rw [hstop]
  exact hrest

/-- Waiting is polling as often as the host allows. -/
theorem Does.await (hlimit : ∀ h, P h → h.stepLimit = limit)
    (hpoll : Does (poll operation act stop limit limit) P b Q) :
    Does (await operation act stop) P b Q := by
  intro h hp
  obtain ⟨h', hrun, hq⟩ := hpoll h hp
  refine ⟨h', ?_, hq⟩
  rw [← hlimit h hp] at hrun
  exact hrun

/-- What is waited for comes at once. -/
theorem Does.await_first (hlimit : ∀ h, P h → h.stepLimit = limit) (hsteps : 1 ≤ limit)
    (hfirst : Does act P a Q) (hstop : stop a = some b) :
    Does (HostM.await operation act stop) P b Q := by
  obtain ⟨n, rfl⟩ : ∃ n, limit = n + 1 := ⟨limit - 1, by omega⟩
  exact .await hlimit (hfirst.poll_stop hstop)

/-- What is waited for comes with the second try. -/
theorem Does.await_second {a' : α} (hlimit : ∀ h, P h → h.stepLimit = limit)
    (hsteps : 2 ≤ limit) (hfirst : Does act P a Q) (hgo : stop a = none)
    (hsecond : Does act Q a' R) (hstop : stop a' = some b) :
    Does (HostM.await operation act stop) P b R := by
  obtain ⟨n, rfl⟩ : ∃ n, limit = n + 2 := ⟨limit - 2, by omega⟩
  exact .await hlimit (hfirst.poll_next hgo (hsecond.poll_stop hstop))

/-- After `n` tries in vain the next one gives what is waited for, if there are that many left.
`stage i` is the host after `i` of them. -/
theorem run_poll {n : Nat} {tried : Nat → α} (stage : Nat → Host) {h' : Host}
    (htry : ∀ i < n, act.run (stage i) = .ok (tried i) (stage (i + 1)))
    (hgo : ∀ i < n, stop (tried i) = none) (hlast : act.run (stage n) = .ok a h')
    (hstop : stop a = some b) (left : Nat) :
    (poll operation act stop limit left).run (stage 0) =
      if n < left then .ok b h' else .error (.timeout operation limit) (stage left) := by
  induction left generalizing n stage tried with
  | zero => rfl
  | succ left ih =>
      cases n with
      | zero =>
          rw [poll, run_bind_ok hlast, hstop, if_pos (Nat.succ_pos left)]
          rfl
      | succ n =>
          rw [poll, run_bind_ok (htry 0 (Nat.succ_pos n)), hgo 0 (Nat.succ_pos n)]
          simp only [Nat.add_lt_add_iff_right]
          exact ih (fun i => stage (i + 1)) (fun i hi => htry (i + 1) (Nat.succ_lt_succ hi))
            (fun i hi => hgo (i + 1) (Nat.succ_lt_succ hi)) hlast

theorem run_await {n : Nat} {tried : Nat → α} (stage : Nat → Host) {h' : Host}
    (htry : ∀ i < n, act.run (stage i) = .ok (tried i) (stage (i + 1)))
    (hgo : ∀ i < n, stop (tried i) = none) (hlast : act.run (stage n) = .ok a h')
    (hstop : stop a = some b) :
    (await operation act stop).run (stage 0) =
      if n < (stage 0).stepLimit then .ok b h'
      else .error (.timeout operation (stage 0).stepLimit) (stage (stage 0).stepLimit) :=
  run_poll stage htry hgo hlast hstop _

/-- What comes after a wait is run if the wait has an end. -/
theorem run_await_bind {γ : Type} {n : Nat} {tried : Nat → α} {f : β → HostM γ}
    (stage : Nat → Host) {h' : Host}
    (htry : ∀ i < n, act.run (stage i) = .ok (tried i) (stage (i + 1)))
    (hgo : ∀ i < n, stop (tried i) = none) (hlast : act.run (stage n) = .ok a h')
    (hstop : stop a = some b) :
    (await operation act stop >>= f).run (stage 0) =
      if n < (stage 0).stepLimit then (f b).run h'
      else .error (.timeout operation (stage 0).stepLimit) (stage (stage 0).stepLimit) := by
  have hwait := @run_await _ _ a b operation act stop n tried stage h' htry hgo hlast hstop
  split
  · next hlong => rw [if_pos hlong] at hwait; exact run_bind_ok hwait
  · next hshort => rw [if_neg hshort] at hwait; exact run_bind_error hwait

theorem run_await_first {h h' : Host} (hfirst : act.run h = .ok a h') (hstop : stop a = some b)
    (hlimit : 1 ≤ h.stepLimit) : (await operation act stop).run h = .ok b h' := by
  have hnone : ∀ i, ¬i < 0 := Nat.not_lt_zero
  have hwait := @run_await _ _ a b operation act stop 0 (fun _ => a) (fun _ => h) h'
    (fun i hi => absurd hi (hnone i)) (fun i hi => absurd hi (hnone i)) hfirst hstop
  exact hwait.trans (if_pos hlimit)

end Waiting

end HostM

/-! ### The drive behind its link -/

/-- What words on the lanes leave alone until a frame is accepted: the step limit of the host,
and the drive behind its link. -/
structure Backdrop where
  limit : Nat
  commands : CommandLayer
  disk : Disk
  lastReceived : Frame

namespace Backdrop

/-- The backdrop with the rest of the drive as a frame has left it. -/
def update (b : Backdrop) (commands : CommandLayer) (disk : Disk) (frame : Frame) : Backdrop :=
  { limit := b.limit, commands, disk, lastReceived := frame }

/-- The answers to a frame, as frames. -/
def answers (b : Backdrop) (frame : Frame) : List Frame :=
  (b.commands.handle b.disk frame).1.map Fis.toWords

/-- The backdrop once a frame has been handled. -/
def handled (b : Backdrop) (frame : Frame) : Backdrop :=
  b.update (b.commands.handle b.disk frame).2.1 (b.commands.handle b.disk frame).2.2 frame

/-- What the command layer makes of a frame, in terms of the backdrop. -/
theorem handled_of_handle {b : Backdrop} {frame : Frame} {replies : List Fis}
    {commands : CommandLayer} {disk : Disk}
    (h : b.commands.handle b.disk frame = (replies, commands, disk)) :
    b.handled frame = b.update commands disk frame ∧
      b.answers frame = replies.map Fis.toWords := by
  rw [handled, answers, h]
  exact ⟨rfl, rfl⟩

/-- The drive is up, its link stands at `l`, and the rest is the backdrop. -/
structure Linked (b : Backdrop) (l : Link) (h : Host) : Prop where
  isReady : h.drive.isReady = true
  limit : h.stepLimit = b.limit
  link : h.drive.link = l
  commands : h.drive.commands = b.commands
  disk : h.drive.disk = b.disk
  lastReceived : h.drive.lastReceived = b.lastReceived

end Backdrop

/-- The backdrop of a host. -/
def Host.backdrop (h : Host) : Backdrop :=
  { limit := h.stepLimit
    commands := h.drive.commands
    disk := h.drive.disk
    lastReceived := h.drive.lastReceived }

theorem Backdrop.Linked.backdrop {b : Backdrop} {l : Link} {h : Host} (hl : b.Linked l h) :
    h.backdrop = b := by
  rw [Host.backdrop, hl.limit, hl.commands, hl.disk, hl.lastReceived]

theorem Host.linked {h : Host} (hready : h.drive.isReady = true) :
    h.backdrop.Linked h.drive.link h :=
  ⟨hready, rfl, rfl, rfl, rfl, rfl⟩

namespace HostM

/-! ### One word -/

variable {d : Drive} {limit steps : Nat}

/-- A word for a drive that is up is one step of its link. -/
theorem run_send (hready : d.isReady = true) (hreceived : d.link.received = [])
    (word : PhyWord) :
    ∃ handshake : Handshake, handshake.isDone = true ∧
      (send word).run ⟨d, limit, steps⟩ =
        .ok (d.link.step word).1 ⟨{ d with handshake }.stepLink word, limit, steps + 1⟩ := by
  let handshake := (d.handshake.listen false false false).2
  let d₁ : Drive := { d with handshake }
  have hdone : handshake.isDone = true := (Handshake.isDone_listen ..).trans hready
  obtain ⟨-, houtput⟩ := Drive.stepLink_state (d := d₁) hreceived word
  have hkeep : (d₁.stepLink word).handshake = handshake :=
    Drive.stepLink_handshake (d := d₁) hreceived word
  have htx : (d.txEdge (.ofWord word)).2 = d₁.stepLink word :=
    Drive.txEdge_ready hready rfl
  -- The handshake is done, so the receive edge only reads the word off.
  have hrx : (d₁.stepLink word).rxEdge.2 = d₁.stepLink word := by
    rw [Drive.rxEdge_eq, Handshake.answer_of_done (hkeep ▸ hdone)]
  have hword : (d₁.stepLink word).rxEdge.1.word = (d.link.step word).1 := by
    rw [Drive.rxEdge, houtput]
    rfl
  refine ⟨handshake, hdone, ?_⟩
  calc (send word).run ⟨d, limit, steps⟩
      = .ok (d.txEdge (.ofWord word)).2.rxEdge.1.word
          ⟨(d.txEdge (.ofWord word)).2.rxEdge.2, limit, steps + 1⟩ := rfl
    _ = .ok (d.link.step word).1 ⟨d₁.stepLink word, limit, steps + 1⟩ := by
        rw [htx, hrx, hword]

variable {b : Backdrop} {l : Link}

/-- A word with which the link accepts no frame. -/
theorem send_does (hreceived : l.received = []) {word : PhyWord}
    (ha : l.accepted? word = none) :
    Does (send word) (b.Linked l) (l.step word).1 (b.Linked (l.step word).2) := by
  rintro ⟨d, limit, steps⟩ ⟨hready, hlimit, rfl, hcommands, hdisk, hlast⟩
  obtain ⟨handshake, hdone, hrun⟩ := run_send hready hreceived word
  rw [Drive.stepLink_none (d := { d with handshake }) hreceived ha] at hrun
  exact ⟨_, hrun, hdone, hlimit, rfl, hcommands, hdisk, hlast⟩

/-- A word with which the link accepts a frame: it is handled at once. -/
theorem send_does_accepting (hreceived : l.received = []) {word : PhyWord} {frame : Frame}
    (ha : l.accepted? word = some frame) :
    Does (send word) (b.Linked l) (l.step word).1
      ((b.handled frame).Linked { (l.step word).2 with
        received := []
        outbound := (l.step word).2.outbound ++ b.answers frame }) := by
  rintro ⟨d, limit, steps⟩ ⟨hready, hlimit, rfl, hcommands, hdisk, hlast⟩
  obtain ⟨handshake, hdone, hrun⟩ := run_send hready hreceived word
  rw [Drive.stepLink_some (d := { d with handshake }) hreceived ha] at hrun
  dsimp only at hcommands hdisk
  refine ⟨_, hrun, hdone, hlimit, ?_, ?_, ?_, rfl⟩
  · rw [Backdrop.answers, ← hcommands, ← hdisk]
    rfl
  · rw [Backdrop.handled, ← hcommands, ← hdisk]
    rfl
  · rw [Backdrop.handled, ← hcommands, ← hdisk]
    rfl

end HostM

end SerialAta
