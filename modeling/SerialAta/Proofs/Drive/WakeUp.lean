import Mathlib.Data.List.DropRight
import SerialAta.Proofs.Drive.Delivery
/-!
# SerialAta.Proofs.Drive.WakeUp

**No traffic before the handshake** (`Drive.silent_until_handshake`), after whatever has been done
to the drive and wherever resets fall.

What counts is what has been done since the last reset. There the drive is first asleep
(`Drive.Asleep`): its link has not begun and its lanes are idle. A receive edge wakes it up, since
the transmit side alone does not end the handshake, and from there on it is awake (`Drive.Awake`):
each transmit edge is one step of the link, and the word of the latest one stands at the output.
-/

namespace SerialAta

/-! ### What a link has been through -/

/-- The link has come from `l` by one step with each of the words `hosts`. Between the steps frames
may have been queued and received ones taken. -/
inductive Link.Stepped (l : Link) : (hosts : List PhyWord) → Link → Prop
  | start : Stepped l [] l
  | step {hosts : List PhyWord} {l' : Link} (host : PhyWord) :
      Stepped l hosts l' → Stepped l (hosts ++ [host]) (l'.step host).2
  | enqueue {hosts : List PhyWord} {l' : Link} (frame : Frame) :
      Stepped l hosts l' → Stepped l hosts (l'.enqueue frame)
  | take {hosts : List PhyWord} {l' l'' : Link} {frame : Frame} :
      Stepped l hosts l' → l'.popReceived = some (frame, l'') → Stepped l hosts l''

theorem Link.Stepped.enqueueAll {l l' : Link} {hosts : List PhyWord} (h : l.Stepped hosts l')
    (frames : List Frame) : l.Stepped hosts { l' with outbound := l'.outbound ++ frames } := by
  induction frames generalizing l' with
  | nil => rwa [List.append_nil]
  | cons frame frames ih =>
      have hrest := ih (h.enqueue frame)
      rwa [Link.enqueue, List.append_assoc] at hrest

/-! ### Runs with resets -/

/-- What may be done to a drive. -/
inductive DriveCall
  | edge (e : DriveEdge)
  | reset

namespace DriveCall

/-- Whether a call puts the drive back to the beginning, by itself or by the signal of the
host. -/
def resets : DriveCall → Bool
  | edge (.tx signals) => signals.reset
  | edge .rx => false
  | reset => true

/-- The word that the host drives in a transmit edge. -/
def hostWord? : DriveCall → Option PhyWord
  | edge (.tx signals) => some signals.word
  | edge .rx => none
  | reset => none

end DriveCall

namespace Drive

/-- The drive after a call. -/
def call (d : Drive) : DriveCall → Drive
  | .edge e => d.edge e
  | .reset => d.reset

/-- The drive after calls. -/
def afterCalls (d : Drive) (calls : List DriveCall) : Drive := calls.foldl call d

variable {d start : Drive} {parameters : LinkParameters} {hosts : List PhyWord}

theorem afterCalls_append (d : Drive) (calls more : List DriveCall) :
    d.afterCalls (calls ++ more) = (d.afterCalls calls).afterCalls more :=
  List.foldl_append

theorem call_of_resets {c : DriveCall} (hc : c.resets = true) : d.call c = d.reset := by
  match c with
  | .reset => rfl
  | .edge (.tx signals) => exact txEdge_reset hc
  | .edge .rx => cases hc

/-! ### The settings of the link stay -/

theorem parameters_foldl_deliver (frames : List Frame) (d : Drive) :
    (frames.foldl deliver d).link.parameters = d.link.parameters := by
  induction frames generalizing d with
  | nil => rfl
  | cons frame frames ih => rw [List.foldl_cons, ih, deliver_eq]

theorem parameters_stepLink (d : Drive) (host : PhyWord) :
    (d.stepLink host).link.parameters = d.link.parameters := by
  rw [stepLink_eq, parameters_foldl_deliver]
  exact Link.step_parameters ..

theorem parameters_call (d : Drive) (c : DriveCall) :
    (d.call c).link.parameters = d.link.parameters := by
  match c with
  | .reset => rfl
  | .edge .rx => rfl
  | .edge (.tx signals) =>
      show (d.txEdge signals).2.link.parameters = _
      rcases d.txEdge_cases signals with ⟨-, htx⟩ | ⟨-, -, htx⟩ | ⟨-, -, htx⟩
      · rw [htx]
        rfl
      · rw [htx]
        rfl
      · rw [htx, parameters_stepLink]
        rfl

theorem parameters_afterCalls (d : Drive) (calls : List DriveCall) :
    (d.afterCalls calls).link.parameters = d.link.parameters := by
  induction calls generalizing d with
  | nil => rfl
  | cons c calls ih => exact (ih (d.call c)).trans (parameters_call d c)

/-! ### Asleep -/

/-- Since `start` nothing has happened to the drive but that its handshake went on. -/
structure Asleep (start : Drive) (parameters : LinkParameters) (d : Drive) : Prop where
  isReady : d.isReady = false
  link : d.link = .new parameters
  output : d.output = none
  disk : d.disk = start.disk
  commands : d.commands = start.commands

theorem asleep_new (parameters : LinkParameters) (disk : Disk) :
    Asleep (new parameters disk) parameters (new parameters disk) :=
  ⟨rfl, rfl, rfl, rfl, rfl⟩

theorem asleep_reset (d : Drive) : Asleep d.reset d.link.parameters d.reset :=
  ⟨rfl, rfl, rfl, rfl, rfl⟩

theorem Asleep.txEdge (h : Asleep start parameters d) {tx : HostSignals}
    (hreset : tx.reset = false) :
    Asleep start parameters (d.txEdge tx).2 := by
  have hreceived : d.link.received = [] := by rw [h.link]; rfl
  have hready := txEdge_isReady hreceived hreset
  rw [txEdge_waiting h.isReady hreset] at hready ⊢
  exact ⟨hready.trans h.isReady, h.link, h.output, h.disk, h.commands⟩

theorem Asleep.rxEdge (h : Asleep start parameters d) (hready : d.rxEdge.2.isReady = false) :
    Asleep start parameters d.rxEdge.2 :=
  ⟨hready, h.link, h.output, h.disk, h.commands⟩

/-! ### Awake -/

/-- The handshake is done, and since then the link has been stepped with the given words of the
host; the output has a word if there are any. -/
structure Awake (parameters : LinkParameters) (hosts : List PhyWord) (d : Drive) : Prop where
  isReady : d.isReady = true
  received : d.link.received = []
  stepped : (Link.new parameters).Stepped hosts d.link
  output : d.output.isSome = !hosts.isEmpty

/-- A receive edge wakes the drive up. -/
theorem Asleep.awake (h : Asleep start parameters d) (hready : d.rxEdge.2.isReady = true) :
    Awake parameters [] d.rxEdge.2 := by
  refine ⟨hready, ?_, ?_, ?_⟩
  · rw [rxEdge_eq, h.link]
    rfl
  · rw [rxEdge_eq, h.link]
    exact .start
  · rw [rxEdge_eq, h.output]
    rfl

theorem Awake.rxEdge (h : Awake parameters hosts d) : Awake parameters hosts d.rxEdge.2 :=
  ⟨rxEdge_isReady h.isReady, h.received, h.stepped, h.output⟩

theorem Awake.stepLink (h : Awake parameters hosts d) (host : PhyWord) :
    (Link.new parameters).Stepped (hosts ++ [host]) (d.stepLink host).link ∧
      (d.stepLink host).link.received = [] := by
  have hnext := h.stepped.step host
  cases ha : d.link.accepted? host with
  | none =>
      rw [stepLink_none h.received ha]
      exact ⟨hnext, by simp [Link.step_received, h.received, ha]⟩
  | some frame =>
      have hone : (d.link.step host).2.popReceived =
          some (frame, { (d.link.step host).2 with received := [] }) := by
        have hframe : (d.link.step host).2.received = [frame] := by
          rw [Link.step_received, h.received, ha]
          rfl
        rw [Link.popReceived, hframe]
      rw [stepLink_some h.received ha]
      exact ⟨(hnext.take hone).enqueueAll _, rfl⟩

/-- A transmit edge steps the link, whose word is at the output then. -/
theorem Awake.txEdge_output (h : Awake parameters hosts d) {tx : HostSignals}
    (hreset : tx.reset = false) : (d.txEdge tx).2.output = some (d.link.step tx.word).1 := by
  have h₁ : (d.listened tx).link.received = [] := h.received
  rw [txEdge_ready h.isReady hreset]
  exact (stepLink_state h₁ tx.word).2

theorem Awake.txEdge (h : Awake parameters hosts d) {tx : HostSignals} (hreset : tx.reset = false) :
    Awake parameters (hosts ++ [tx.word]) (d.txEdge tx).2 := by
  have hready : (d.txEdge tx).2.isReady = true :=
    (txEdge_isReady h.received hreset).trans h.isReady
  have houtput : (d.txEdge tx).2.output.isSome = !(hosts ++ [tx.word]).isEmpty := by
    rw [h.txEdge_output hreset]
    simp
  rw [txEdge_ready h.isReady hreset] at hready houtput ⊢
  have hlistened : (d.listened tx).isReady = true :=
    (Handshake.isDone_listen ..).trans h.isReady
  have h₁ : Awake parameters hosts (d.listened tx) := ⟨hlistened, h.received, h.stepped, h.output⟩
  obtain ⟨hstepped, hreceived⟩ := h₁.stepLink tx.word
  exact ⟨hready, hreceived, hstepped, houtput⟩

/-- A drive that is awake stays so until it is reset. -/
theorem Awake.run (h : Awake parameters hosts d) {calls : List DriveCall}
    (hcalls : ∀ c ∈ calls, c.resets = false) :
    Awake parameters (hosts ++ calls.filterMap DriveCall.hostWord?) (d.afterCalls calls) := by
  induction calls generalizing d hosts with
  | nil => rwa [List.filterMap_nil, List.append_nil]
  | cons c calls ih =>
      have hrest : ∀ c ∈ calls, c.resets = false := fun c hc =>
        hcalls c (List.mem_cons_of_mem _ hc)
      have hc := hcalls c (List.mem_cons_self ..)
      match c with
      | .reset => cases hc
      | .edge .rx => exact ih h.rxEdge hrest
      | .edge (.tx signals) =>
          have hlast := ih (h.txEdge hc) hrest
          rwa [List.append_assoc] at hlast

/-- The drive sleeps through the calls, or one of them is the receive edge that wakes it up. -/
def SleepsOrWakes (start : Drive) (parameters : LinkParameters) (d : Drive)
    (calls : List DriveCall) : Prop :=
  Asleep start parameters (d.afterCalls calls) ∨
    ∃ waiting up, calls = waiting ++ .edge .rx :: up ∧
      (d.afterCalls waiting).isReady = false ∧ (d.afterCalls waiting).rxEdge.2.isReady = true ∧
      Awake parameters (up.filterMap DriveCall.hostWord?) (d.afterCalls calls)

theorem SleepsOrWakes.cons {c : DriveCall} {calls : List DriveCall}
    (h : SleepsOrWakes start parameters (d.call c) calls) :
    SleepsOrWakes start parameters d (c :: calls) := by
  rcases h with hlast | ⟨waiting, up, rfl, hwaiting, hready, hlast⟩
  · exact .inl hlast
  · exact .inr ⟨c :: waiting, up, rfl, hwaiting, hready, hlast⟩

theorem Asleep.run (h : Asleep start parameters d) {calls : List DriveCall}
    (hcalls : ∀ c ∈ calls, c.resets = false) : SleepsOrWakes start parameters d calls := by
  induction calls generalizing d with
  | nil => exact .inl h
  | cons c calls ih =>
      have hrest : ∀ c ∈ calls, c.resets = false := fun c hc =>
        hcalls c (List.mem_cons_of_mem _ hc)
      have hc := hcalls c (List.mem_cons_self ..)
      match c with
      | .reset => cases hc
      | .edge (.tx signals) => exact (ih (h.txEdge hc) hrest).cons
      | .edge .rx =>
          cases hready : d.rxEdge.2.isReady with
          | false => exact (ih (h.rxEdge hready) hrest).cons
          | true => exact .inr ⟨[], calls, rfl, h.isReady, hready, (h.awake hready).run hrest⟩

/-- Once the handshake is done, it stays done until a reset. -/
theorem Asleep.waiting_of_waiting (h : Asleep start parameters d) {before later : List DriveCall}
    (hcalls : ∀ c ∈ before ++ later, c.resets = false)
    (hready : (d.afterCalls (before ++ later)).isReady = false) :
    (d.afterCalls before).isReady = false := by
  rcases h.run fun c hc => hcalls c (List.mem_append_left _ hc) with
    hasleep | ⟨_, _, -, -, -, hawake⟩
  · exact hasleep.isReady
  · have hlast := hawake.run fun c hc => hcalls c (List.mem_append_right _ hc)
    rw [afterCalls_append, hlast.isReady] at hready
    cases hready

/-- Where a receive edge has woken the drive up, it is awake after more calls without a reset. -/
theorem Asleep.awake_of_wakes (h : Asleep start parameters d) {waiting more : List DriveCall}
    (hcalls : ∀ c ∈ waiting ++ .edge .rx :: more, c.resets = false)
    (hwakes : (d.afterCalls waiting).rxEdge.2.isReady = true) :
    ∃ hosts, Awake parameters hosts (d.afterCalls (waiting ++ .edge .rx :: more)) := by
  rcases h.run hcalls with hasleep | ⟨_, _, -, -, -, hawake⟩
  · have hsplit : waiting ++ .edge .rx :: more = (waiting ++ [.edge .rx]) ++ more := by simp
    rw [hsplit] at hcalls hasleep
    have hwaiting := h.waiting_of_waiting hcalls hasleep.isReady
    rw [afterCalls_append] at hwaiting
    exact absurd hwaiting (by rw [Bool.not_eq_false]; exact hwakes)
  · exact ⟨_, hawake⟩

theorem output_of_idle (d : Drive) {idle : List DriveCall} (hidle : ∀ c ∈ idle, c = .edge .rx) :
    (d.afterCalls idle).output = d.output := by
  induction idle generalizing d with
  | nil => rfl
  | cons c idle ih =>
      obtain rfl := hidle c (List.mem_cons_self ..)
      exact (ih (d.call (.edge .rx)) fun c hc => hidle c (List.mem_cons_of_mem _ hc)).trans rfl

/-! ### Since the last reset -/

/-- Where the calls since the last reset begin, the drive is asleep. -/
theorem asleep_segment (parameters : LinkParameters) (disk : Disk) (calls : List DriveCall) :
    let start := (new parameters disk).afterCalls (calls.rdropWhile fun c => !c.resets)
    Asleep start parameters start := by
  intro start
  by_cases hnone : calls.rdropWhile (fun c => !c.resets) = []
  · have hstart : start = new parameters disk := congrArg (afterCalls _) hnone
    rw [hstart]
    exact asleep_new parameters disk
  · have hlast := List.rdropWhile_last_not (fun c => !c.resets) calls hnone
    have hstart : start = _ := congrArg (afterCalls (new parameters disk))
      (List.dropLast_append_getLast hnone).symm
    have hresets : DriveCall.resets (List.getLast _ hnone) = true := by simpa using hlast
    have hcall : start = Drive.reset _ :=
      (hstart.trans (afterCalls_append ..)).trans (call_of_resets hresets)
    have hasleep := asleep_reset
      ((new parameters disk).afterCalls (calls.rdropWhile fun c => !c.resets).dropLast)
    rw [← hcall, parameters_afterCalls] at hasleep
    exact hasleep

/-- **No traffic before the handshake.** Whatever has been done to a new drive, consider the calls
since the last reset. While the handshake is not done, transmit edges report that, the link has not
begun, disk and buffer are as they were, and receive edges show idle lanes without a word until
one of them ends the handshake. It was a receive edge that did so if the handshake is done, and it
stays done. The link has since been stepped once with each transmit edge, receive edges show that
the lanes are up, and they show a word if there was such a step: the one that the link has driven in
the latest. -/
theorem silent_until_handshake (parameters : LinkParameters) (disk : Disk)
    (calls : List DriveCall) :
    let segment := calls.rtakeWhile fun c => !c.resets
    let start := (new parameters disk).afterCalls (calls.rdropWhile fun c => !c.resets)
    let d := (new parameters disk).afterCalls calls
    let rx := d.rxEdge.1
    (d.isReady = false →
      (∀ before, before <+: segment → (start.afterCalls before).isReady = false) ∧
      (∀ tx, (d.txEdge tx).1.ready = false) ∧
      d.link.state = .sendAlign 0 ∧ d.link.pending = 0 ∧
      d.disk = start.disk ∧ d.commands.buffer = start.commands.buffer ∧
      rx.phyReady = d.rxEdge.2.isReady ∧ rx.elecidle = !d.rxEdge.2.isReady ∧
      rx.valid = false ∧ rx.word = default) ∧
    (d.isReady = true → ∃ waiting up,
      segment = waiting ++ .edge .rx :: up ∧ (start.afterCalls waiting).isReady = false ∧
      (start.afterCalls waiting).rxEdge.2.isReady = true ∧
      rx.phyReady = true ∧ rx.elecidle = false ∧
      (Link.new parameters).Stepped (up.filterMap DriveCall.hostWord?) d.link ∧
      rx.valid = !(up.filterMap DriveCall.hostWord?).isEmpty ∧
      ∀ earlier tx idle, up = earlier ++ .edge (.tx tx) :: idle → (∀ c ∈ idle, c = .edge .rx) →
        let latest := start.afterCalls (waiting ++ .edge .rx :: earlier)
        rx.word = (latest.link.step tx.word).1) := by
  intro segment start d rx
  have hd : d = start.afterCalls segment := by
    rw [← afterCalls_append, List.rdropWhile_append_rtakeWhile]
  have hsegment : ∀ c ∈ segment, c.resets = false := by
    intro c hc
    simpa using List.mem_rtakeWhile_imp hc
  have hstart : Asleep start parameters start := asleep_segment parameters disk calls
  have hrun : SleepsOrWakes start parameters start segment := hstart.run hsegment
  rw [SleepsOrWakes, ← hd] at hrun
  refine ⟨fun hready => ?_, fun hready => ?_⟩
  · have hasleep : Asleep start parameters d := by
      rcases hrun with hasleep | ⟨_, _, -, -, -, hawake⟩
      · exact hasleep
      · rw [hawake.isReady] at hready
        cases hready
    have hout : rx.word = default := congrArg (Option.getD · default) hasleep.output
    have hvalid : rx.valid = (d.rxEdge.2.isReady && d.output.isSome) := rfl
    rw [hasleep.output, Option.isSome_none, Bool.and_false] at hvalid
    refine ⟨fun before hbefore => ?_, txEdge_ready_of_waiting hready, ?_, ?_, hasleep.disk, ?_, rfl,
      rfl, hvalid, hout⟩
    · obtain ⟨later, hlater⟩ := hbefore
      exact hstart.waiting_of_waiting (hlater ▸ hsegment) (by rw [hlater, ← hd]; exact hready)
    · rw [hasleep.link]
      rfl
    · rw [hasleep.link]
      rfl
    · rw [hasleep.commands]
  · obtain ⟨waiting, up, hsplit, hwaiting, hwakes, hawake⟩ := hrun.resolve_left fun hasleep => by
      rw [hasleep.isReady] at hready
      cases hready
    have hup : d.rxEdge.2.isReady = true := rxEdge_isReady hready
    have hvalid : rx.valid = (d.rxEdge.2.isReady && d.output.isSome) := rfl
    have hidle : rx.elecidle = !d.rxEdge.2.isReady := rfl
    rw [hup, hawake.output, Bool.true_and] at hvalid
    rw [hup] at hidle
    refine ⟨waiting, up, hsplit, hwaiting, hwakes, hup, hidle, hawake.stepped, hvalid, ?_⟩
    intro earlier tx idle hlast hrx latest
    have hwhole : segment = (waiting ++ .edge .rx :: earlier) ++ .edge (.tx tx) :: idle := by
      rw [hsplit, hlast, List.append_assoc, List.cons_append]
    rw [hwhole] at hsegment
    obtain ⟨hosts, hlatest⟩ : ∃ hosts, Awake parameters hosts latest :=
      hstart.awake_of_wakes (fun c hc => hsegment c (List.mem_append_left _ hc)) hwakes
    have hreset : tx.reset = false := hsegment (.edge (.tx tx)) (by simp)
    have houtput : d.output = some (latest.link.step tx.word).1 := by
      rw [hd, hwhole, afterCalls_append]
      exact (output_of_idle (latest.txEdge tx).2 hrx).trans (hlatest.txEdge_output hreset)
    exact congrArg (Option.getD · default) houtput

end Drive

end SerialAta
