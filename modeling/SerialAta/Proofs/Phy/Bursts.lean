import Mathlib.Order.Bounds.Basic
import Mathlib.Order.Nat
import SerialAta.Phy.Handshake
/-!
# SerialAta.Proofs.Phy.Bursts

**Every burst of the host is acknowledged once and answered once** (`Handshake.answers_bursts`),
however the steps of the two sides fall.

When that happens is said in terms of the whole history: the first pulse comes with the earliest
COMINIT out of a long enough run of idle steps, the second with the earliest COMWAKE that has two
receive steps between itself and the first. The drive has no history. It has two phases and a
count that stops at its maximum, and `Handshake.Follows` says what they show of the history:
each phase how many receive steps have come since its pulse, up to two (`BurstPhase.Shows`), and
the count how long the host has idled.
-/

namespace SerialAta

/-- A step of the handshake, on either of its sides. -/
inductive HandshakeEvent
  /-- A transmit step, with the levels that the host drives. -/
  | listen (cominit comwake elecidle : Bool)
  /-- A receive step. -/
  | answer
  deriving DecidableEq, Repr

namespace HandshakeEvent

/-- Whether a step is one of the receive side. -/
def isAnswer : HandshakeEvent → Bool
  | listen .. => false
  | answer => true

/-- Whether the host idles, in a step of the transmit side. -/
def elecidle? : HandshakeEvent → Option Bool
  | listen _ _ elecidle => some elecidle
  | answer => none

end HandshakeEvent

/-! ### Bursts in a history -/

section History

variable (events : List HandshakeEvent)

/-- The number of idle steps of the host that a history ends with. Receive steps between them do
not count. -/
def idleRun : Nat :=
  ((events.filterMap HandshakeEvent.elecidle?).reverse.takeWhile id).length

/-- The number of receive steps after step `p` and before step `n`. -/
def answersSince (p n : Nat) : Nat :=
  ((events.take n).drop (p + 1)).countP HandshakeEvent.isAnswer

/-- In step `i` the host drives COMINIT, and with this step it has idled at least `threshold`
steps in a row. -/
def ComresetAt (threshold : UInt32) (i : Nat) : Prop :=
  ∃ comwake elecidle, events[i]? = some (.listen true comwake elecidle) ∧
    threshold.toNat ≤ idleRun (events.take (i + 1))

/-- The first pulse comes with step `p`. -/
def FirstPulse (threshold : UInt32) (p : Nat) : Prop :=
  IsLeast {i | ComresetAt events threshold i} p

/-- In step `i` the host drives COMWAKE, with at least two receive steps since step `p`. -/
def ComwakeAfter (p i : Nat) : Prop :=
  p < i ∧ (∃ cominit elecidle, events[i]? = some (.listen cominit true elecidle)) ∧
    2 ≤ answersSince events p i

/-- The second pulse comes with step `q`. -/
def SecondPulse (threshold : UInt32) (q : Nat) : Prop :=
  ∃ p, FirstPulse events threshold p ∧ IsLeast {i | ComwakeAfter events p i} q

end History

variable {events : List HandshakeEvent} {threshold : UInt32} {n p q : Nat}

/-! ### Histories that grow -/

theorem take_succ_eq {event : HandshakeEvent} (h : events[n]? = some event) :
    events.take (n + 1) = events.take n ++ [event] := by
  rw [List.take_add_one, h]
  rfl

theorem idleRun_listen (past : List HandshakeEvent) (cominit comwake elecidle : Bool) :
    idleRun (past ++ [.listen cominit comwake elecidle]) =
      if elecidle then idleRun past + 1 else 0 := by
  cases elecidle <;> simp [idleRun, HandshakeEvent.elecidle?]

theorem idleRun_answer (past : List HandshakeEvent) :
    idleRun (past ++ [.answer]) = idleRun past := by
  simp [idleRun, HandshakeEvent.elecidle?]

theorem answersSince_succ {event : HandshakeEvent} (h : events[n]? = some event) (hp : p < n) :
    answersSince events p (n + 1) = answersSince events p n + event.isAnswer.toNat := by
  have hlength : (events.take n).length = n := by
    have := (List.getElem?_eq_some_iff.mp h).1
    rw [List.length_take]
    omega
  rw [answersSince, take_succ_eq h, List.drop_append_of_le_length (by omega), List.countP_append,
    answersSince]
  cases event <;> rfl

theorem answersSince_self (events : List HandshakeEvent) (n : Nat) :
    answersSince events n (n + 1) = 0 := by
  rw [answersSince, List.drop_of_length_le (by rw [List.length_take]; omega)]
  rfl

theorem answersSince_mono {m : Nat} (h : m ≤ n) :
    answersSince events p m ≤ answersSince events p n :=
  ((List.take_prefix_take_left h).sublist.drop (p + 1)).countP_le

/-! ### The pulses -/

/-- The least number of a kind is the one that no least number comes before. -/
theorem isLeast_iff {P : Nat → Prop} :
    IsLeast {i | P i} n ↔ P n ∧ ∀ p < n, ¬ IsLeast {i | P i} p := by
  classical
  constructor
  · intro h
    refine ⟨h.1, fun p hp hleast => ?_⟩
    have hle := h.2 hleast.1
    omega
  · rintro ⟨hn, hnone⟩
    refine ⟨hn, fun i hi => Nat.le_of_not_lt fun hlt => ?_⟩
    have hfound : ∃ j, P j := ⟨i, hi⟩
    exact hnone _ (Nat.lt_of_le_of_lt (Nat.find_min' hfound hi) hlt) (Nat.isLeast_find hfound)

theorem FirstPulse.unique {p' : Nat} (h : FirstPulse events threshold p)
    (h' : FirstPulse events threshold p') : p = p' :=
  IsLeast.unique h h'

theorem secondPulse_iff_isLeast (h : FirstPulse events threshold p) :
    SecondPulse events threshold q ↔ IsLeast {i | ComwakeAfter events p i} q := by
  refine ⟨?_, fun hq => ⟨p, h, hq⟩⟩
  rintro ⟨p', h', hq⟩
  rwa [h.unique h']

theorem SecondPulse.unique {q' : Nat} (h : SecondPulse events threshold q)
    (h' : SecondPulse events threshold q') : q = q' := by
  obtain ⟨p, hp, hq⟩ := h
  exact hq.unique ((secondPulse_iff_isLeast hp).mp h')

theorem firstPulse_iff :
    FirstPulse events threshold n ↔
      ComresetAt events threshold n ∧ ∀ p < n, ¬ FirstPulse events threshold p :=
  isLeast_iff

theorem secondPulse_iff :
    SecondPulse events threshold n ↔
      (∃ p, FirstPulse events threshold p ∧ ComwakeAfter events p n) ∧
        ∀ q < n, ¬ SecondPulse events threshold q := by
  constructor
  · rintro ⟨p, hp, hn⟩
    obtain ⟨hafter, hnone⟩ := isLeast_iff.mp hn
    exact ⟨⟨p, hp, hafter⟩, fun q hq h => hnone q hq ((secondPulse_iff_isLeast hp).mp h)⟩
  · rintro ⟨⟨p, hp, hafter⟩, hnone⟩
    refine ⟨p, hp, isLeast_iff.mpr ⟨hafter, fun q hq h => hnone q hq ⟨p, hp, h⟩⟩⟩

/-- Pulses come with transmit steps. -/
theorem FirstPulse.ne_answer (h : FirstPulse events threshold n) : events[n]? ≠ some .answer := by
  obtain ⟨⟨_, _, he, -⟩, -⟩ := h
  rw [he]
  simp

theorem SecondPulse.ne_answer (h : SecondPulse events threshold n) :
    events[n]? ≠ some .answer := by
  obtain ⟨_, -, ⟨-, ⟨_, _, he⟩, -⟩, -⟩ := h
  rw [he]
  simp

/-! ### What a phase shows of the history -/

namespace BurstPhase

/-- The phase so many receive steps after the pulse. -/
def ofAnswers : (answers : Nat) → BurstPhase
  | 0 => detected
  | 1 => asserted
  | _ + 2 => sent

theorem next_ofAnswers (answers : Nat) : (ofAnswers answers).next = ofAnswers (answers + 1) :=
  match answers with
  | 0 => rfl
  | 1 => rfl
  | _ + 2 => rfl

theorem ofAnswers_ne_waiting (answers : Nat) : ofAnswers answers ≠ waiting := by
  match answers with
  | 0 => decide
  | 1 => decide
  | _ + 2 => exact fun h => by cases h

theorem ofAnswers_eq_sent_iff {answers : Nat} : ofAnswers answers = sent ↔ 2 ≤ answers := by
  match answers with
  | 0 => simp [ofAnswers]
  | 1 => simp [ofAnswers]
  | _ + 2 => simp [ofAnswers]

theorem next_ofAnswers_eq_asserted_iff {answers : Nat} :
    (ofAnswers answers).next = asserted ↔ answers = 0 := by
  match answers with
  | 0 => simp [ofAnswers, next]
  | 1 => simp [ofAnswers, next]
  | _ + 2 => simp [ofAnswers, next]

/-- Before step `n`, a phase shows whether the pulse it waits for has come, and how many receive
steps have come since. -/
inductive Shows (events : List HandshakeEvent) (Pulse : Nat → Prop) (n : Nat) : BurstPhase → Prop
  | waiting : (∀ p < n, ¬ Pulse p) → Shows events Pulse n waiting
  | pulsed {p : Nat} :
      p < n → Pulse p → Shows events Pulse n (ofAnswers (answersSince events p n))

variable {Pulse : Nat → Prop} {phase : BurstPhase}

theorem Shows.no_pulse_succ (hnone : ∀ p < n, ¬ Pulse p) (hn : ¬ Pulse n) :
    ∀ p < n + 1, ¬ Pulse p := by
  intro p hp
  rcases Nat.lt_succ_iff_lt_or_eq.mp hp with hp | rfl
  · exact hnone p hp
  · exact hn

/-- A receive step. -/
theorem Shows.answer (h : phase.Shows events Pulse n) (he : events[n]? = some .answer)
    (hn : ¬ Pulse n) : phase.next.Shows events Pulse (n + 1) := by
  cases h with
  | waiting hnone => exact .waiting (no_pulse_succ hnone hn)
  | @pulsed p hp hpulse =>
      have hcount : answersSince events p (n + 1) = answersSince events p n + 1 :=
        answersSince_succ he hp
      rw [next_ofAnswers, ← hcount]
      exact .pulsed (Nat.lt_succ_of_lt hp) hpulse

/-- A transmit step without the pulse. -/
theorem Shows.listen (h : phase.Shows events Pulse n) {cominit comwake elecidle : Bool}
    (he : events[n]? = some (.listen cominit comwake elecidle)) (hn : ¬ Pulse n) :
    phase.Shows events Pulse (n + 1) := by
  cases h with
  | waiting hnone => exact .waiting (no_pulse_succ hnone hn)
  | @pulsed p hp hpulse =>
      have hcount : answersSince events p (n + 1) = answersSince events p n :=
        answersSince_succ he hp
      rw [← hcount]
      exact .pulsed (Nat.lt_succ_of_lt hp) hpulse

/-- A transmit step with the pulse. -/
theorem Shows.pulse (hn : Pulse n) : detected.Shows events Pulse (n + 1) := by
  have hpulsed : Shows events Pulse (n + 1) (ofAnswers (answersSince events n (n + 1))) :=
    .pulsed (Nat.lt_succ_self n) hn
  rwa [answersSince_self] at hpulsed

theorem Shows.eq_waiting_iff (h : phase.Shows events Pulse n) :
    phase = .waiting ↔ ∀ p < n, ¬ Pulse p := by
  cases h with
  | waiting hnone => exact ⟨fun _ => hnone, fun _ => rfl⟩
  | pulsed hp hpulse =>
      exact ⟨fun hw => absurd hw (ofAnswers_ne_waiting _), fun hnone => absurd hpulse (hnone _ hp)⟩

variable (hunique : ∀ p p', Pulse p → Pulse p' → p = p')
include hunique

theorem Shows.eq_sent_iff (h : phase.Shows events Pulse n) :
    phase = .sent ↔ ∃ p < n, Pulse p ∧ 2 ≤ answersSince events p n := by
  cases h with
  | waiting hnone =>
      refine ⟨fun hw => (by cases hw), ?_⟩
      rintro ⟨p, hp, hpulse, -⟩
      exact absurd hpulse (hnone p hp)
  | pulsed hp hpulse =>
      rw [ofAnswers_eq_sent_iff]
      refine ⟨fun hsent => ⟨_, hp, hpulse, hsent⟩, ?_⟩
      rintro ⟨p', -, hpulse', hsent⟩
      rwa [hunique _ _ hpulse hpulse']

theorem Shows.next_eq_asserted_iff (h : phase.Shows events Pulse n) :
    phase.next = .asserted ↔ ∃ p < n, Pulse p ∧ answersSince events p n = 0 := by
  cases h with
  | waiting hnone =>
      refine ⟨fun hw => (by cases hw), ?_⟩
      rintro ⟨p, hp, hpulse, -⟩
      exact absurd hpulse (hnone p hp)
  | pulsed hp hpulse =>
      rw [next_ofAnswers_eq_asserted_iff]
      refine ⟨fun hnow => ⟨_, hp, hpulse, hnow⟩, ?_⟩
      rintro ⟨p', -, hpulse', hnow⟩
      rwa [hunique _ _ hpulse hpulse']

end BurstPhase

namespace Handshake

/-! ### Runs -/

/-- The handshake after a step. -/
def stepped (h : Handshake) : HandshakeEvent → Handshake
  | .listen cominit comwake elecidle => (h.listen cominit comwake elecidle).2
  | .answer => h.answer.2

/-- The handshake after a run. -/
def after (h : Handshake) (events : List HandshakeEvent) : Handshake := events.foldl stepped h

/-- The results of the transmit steps of a run: whether they acknowledge a burst. -/
def acknowledgments (h : Handshake) : List HandshakeEvent → List Bool
  | [] => []
  | .listen cominit comwake elecidle :: events =>
    let (acknowledged, h) := h.listen cominit comwake elecidle
    acknowledged :: h.acknowledgments events
  | .answer :: events => h.answer.2.acknowledgments events

theorem after_concat (h : Handshake) (events : List HandshakeEvent) (event : HandshakeEvent) :
    h.after (events ++ [event]) = (h.after events).stepped event :=
  List.foldl_append

/-! ### What the handshake knows of the history -/

variable {h : Handshake} {cominit comwake elecidle : Bool}

/-- The idle steps after a transmit step. -/
def idleAfter (h : Handshake) (elecidle : Bool) : UInt32 :=
  if elecidle then countIdle h.idleSteps else 0

/-- What makes a transmit step acknowledge COMRESET. -/
def HearsComreset (h : Handshake) (cominit elecidle : Bool) : Prop :=
  h.cominit = .waiting ∧ cominit = true ∧ h.idleThreshold ≤ h.idleAfter elecidle

/-- What makes a transmit step acknowledge COMWAKE. -/
def HearsComwake (h : Handshake) (comwake : Bool) : Prop :=
  h.cominit = .sent ∧ h.comwake = .waiting ∧ comwake = true

theorem listen_of_comreset (hc : h.HearsComreset cominit elecidle) :
    h.listen cominit comwake elecidle =
      (true, { h with idleSteps := h.idleAfter elecidle, cominit := .detected }) :=
  if_pos hc

theorem listen_of_comwake (hw : h.HearsComwake comwake) :
    h.listen cominit comwake elecidle =
      (true, { h with idleSteps := h.idleAfter elecidle, comwake := .detected }) := by
  refine (if_neg fun hc => ?_).trans (if_pos hw)
  have hboth : BurstPhase.sent = .waiting := hw.1.symm.trans hc.1
  cases hboth

theorem listen_of_neither (hc : ¬ h.HearsComreset cominit elecidle)
    (hw : ¬ h.HearsComwake comwake) :
    h.listen cominit comwake elecidle = (false, { h with idleSteps := h.idleAfter elecidle }) :=
  (if_neg hc).trans (if_neg hw)

theorem toNat_countIdle (steps : UInt32) :
    (countIdle steps).toNat = min (steps.toNat + 1) (UInt32.size - 1) := by
  have hlt := steps.toNat_lt
  have hsize : UInt32.size = 4294967296 := rfl
  unfold countIdle
  split
  · next hmax =>
    rw [hmax]
    rfl
  · next hmax =>
    have hne : steps.toNat ≠ 4294967295 := fun heq => hmax (UInt32.toNat_inj.mp heq)
    rw [UInt32.toNat_add, UInt32.toNat_one, Nat.mod_eq_of_lt (by omega)]
    omega

/-- Before step `n`, the handshake shows of the history when the pulses have come and how long the
host has idled. -/
structure Follows (h : Handshake) (events : List HandshakeEvent) (threshold : UInt32) (n : Nat) :
    Prop where
  idleThreshold : h.idleThreshold = threshold
  idle : h.idleSteps.toNat = min (idleRun (events.take n)) (UInt32.size - 1)
  cominit : h.cominit.Shows events (FirstPulse events threshold) n
  comwake : h.comwake.Shows events (SecondPulse events threshold) n

theorem follows_reset (h : Handshake) (events : List HandshakeEvent) :
    h.reset.Follows events h.idleThreshold 0 :=
  ⟨rfl, rfl, .waiting fun _ hp => absurd hp (Nat.not_lt_zero _),
    .waiting fun _ hp => absurd hp (Nat.not_lt_zero _)⟩

theorem Follows.idleAfter (hf : h.Follows events threshold n)
    (he : events[n]? = some (.listen cominit comwake elecidle)) :
    (h.idleAfter elecidle).toNat = min (idleRun (events.take (n + 1))) (UInt32.size - 1) := by
  rw [take_succ_eq he, idleRun_listen, Handshake.idleAfter]
  cases elecidle with
  | false => rfl
  | true =>
      rw [if_pos rfl, if_pos rfl, toNat_countIdle, hf.idle]
      omega

/-- COMRESET is heard where the first pulse is to come. -/
theorem Follows.hearsComreset_iff (hf : h.Follows events threshold n)
    (he : events[n]? = some (.listen cominit comwake elecidle)) :
    h.HearsComreset cominit elecidle ↔ FirstPulse events threshold n := by
  have hidle : h.idleThreshold ≤ h.idleAfter elecidle ↔
      threshold.toNat ≤ idleRun (events.take (n + 1)) := by
    have hlt := threshold.toNat_lt
    have hsize : UInt32.size = 4294967296 := rfl
    rw [hf.idleThreshold, UInt32.le_iff_toNat_le, hf.idleAfter he]
    omega
  rw [HearsComreset, hf.cominit.eq_waiting_iff, hidle, firstPulse_iff]
  constructor
  · rintro ⟨hnone, rfl, hlong⟩
    exact ⟨⟨comwake, elecidle, he, hlong⟩, hnone⟩
  · rintro ⟨⟨_, _, he', hlong⟩, hnone⟩
    rw [he] at he'
    cases he'
    exact ⟨hnone, rfl, hlong⟩

/-- COMWAKE is heard where the second pulse is to come. -/
theorem Follows.hearsComwake_iff (hf : h.Follows events threshold n)
    (he : events[n]? = some (.listen cominit comwake elecidle)) :
    h.HearsComwake comwake ↔ SecondPulse events threshold n := by
  rw [HearsComwake, hf.cominit.eq_sent_iff fun _ _ => FirstPulse.unique, hf.comwake.eq_waiting_iff,
    secondPulse_iff]
  constructor
  · rintro ⟨⟨p, hp, hpulse, htwo⟩, hnone, rfl⟩
    exact ⟨⟨p, hpulse, hp, ⟨cominit, elecidle, he⟩, htwo⟩, hnone⟩
  · rintro ⟨⟨p, hpulse, hp, ⟨_, _, he'⟩, htwo⟩, hnone⟩
    rw [he] at he'
    cases he'
    exact ⟨⟨p, hp, hpulse, htwo⟩, hnone, rfl⟩

/-- A transmit step acknowledges a burst exactly where a pulse is to come. -/
theorem Follows.listen_iff (hf : h.Follows events threshold n)
    (he : events[n]? = some (.listen cominit comwake elecidle)) :
    (h.listen cominit comwake elecidle).1 = true ↔
      FirstPulse events threshold n ∨ SecondPulse events threshold n := by
  rw [← hf.hearsComreset_iff he, ← hf.hearsComwake_iff he]
  by_cases hc : h.HearsComreset cominit elecidle
  · simp [listen_of_comreset hc, hc]
  · by_cases hw : h.HearsComwake comwake
    · simp [listen_of_comwake hw, hw]
    · simp [listen_of_neither hc hw, hc, hw]

theorem Follows.step (hf : h.Follows events threshold n) {event : HandshakeEvent}
    (he : events[n]? = some event) : (h.stepped event).Follows events threshold (n + 1) := by
  cases event with
  | answer =>
      have hidle : idleRun (events.take (n + 1)) = idleRun (events.take n) := by
        rw [take_succ_eq he, idleRun_answer]
      exact ⟨hf.idleThreshold, hidle ▸ hf.idle, hf.cominit.answer he fun hp => hp.ne_answer he,
        hf.comwake.answer he fun hp => hp.ne_answer he⟩
  | listen cominit comwake elecidle =>
      have hfirst := hf.hearsComreset_iff he
      have hsecond := hf.hearsComwake_iff he
      have hidle := hf.idleAfter he
      rw [stepped]
      by_cases hc : h.HearsComreset cominit elecidle
      · rw [listen_of_comreset hc]
        refine ⟨hf.idleThreshold, hidle, .pulse (hfirst.mp hc), hf.comwake.listen he fun hp => ?_⟩
        have hboth : BurstPhase.sent = .waiting := (hsecond.mpr hp).1.symm.trans hc.1
        cases hboth
      · have hcominit := hf.cominit.listen he (mt hfirst.mpr hc)
        by_cases hw : h.HearsComwake comwake
        · rw [listen_of_comwake hw]
          exact ⟨hf.idleThreshold, hidle, hcominit, .pulse (hsecond.mp hw)⟩
        · rw [listen_of_neither hc hw]
          exact ⟨hf.idleThreshold, hidle, hcominit, hf.comwake.listen he (mt hsecond.mpr hw)⟩

theorem follows (h : Handshake) (events : List HandshakeEvent) (hn : n ≤ events.length) :
    (h.reset.after (events.take n)).Follows events h.idleThreshold n := by
  induction n with
  | zero => exact follows_reset h events
  | succ n ih =>
      have he := List.getElem?_eq_getElem (Nat.lt_of_succ_le hn)
      rw [take_succ_eq he, after_concat]
      exact (ih (Nat.le_of_succ_le hn)).step he

/-! ### How often bursts are acknowledged -/

/-- The number of answers for which the host burst has still to come. -/
def unheard (h : Handshake) : Nat :=
  (decide (h.cominit = .waiting)).toNat + (decide (h.comwake = .waiting)).toNat

theorem unheard_answer (h : Handshake) : h.answer.2.unheard = h.unheard := by
  have hnext : ∀ phase : BurstPhase, phase.next = .waiting ↔ phase = .waiting := by
    intro phase
    cases phase <;> simp [BurstPhase.next]
  simp [answer, unheard, hnext]

theorem unheard_listen (h : Handshake) (cominit comwake elecidle : Bool) :
    (h.listen cominit comwake elecidle).1.toNat +
      (h.listen cominit comwake elecidle).2.unheard = h.unheard := by
  by_cases hc : h.HearsComreset cominit elecidle
  · rw [listen_of_comreset hc]
    simp [unheard, hc.1]
  · by_cases hw : h.HearsComwake comwake
    · rw [listen_of_comwake hw]
      simp [unheard, hw.2.1, Nat.add_comm]
    · rw [listen_of_neither hc hw]
      simp [unheard]

theorem count_acknowledgments_le (h : Handshake) (events : List HandshakeEvent) :
    (h.acknowledgments events).count true ≤ h.unheard := by
  induction events generalizing h with
  | nil => exact Nat.zero_le _
  | cons event events ih =>
      cases event with
      | answer =>
          rw [acknowledgments, ← unheard_answer]
          exact ih _
      | listen cominit comwake elecidle =>
          have hrest := ih (h.listen cominit comwake elecidle).2
          have hsum := unheard_listen h cominit comwake elecidle
          rw [acknowledgments, List.count_cons]
          cases hack : (h.listen cominit comwake elecidle).1 with
          | false =>
              rw [hack] at hsum
              simp only [Bool.toNat_false] at hsum
              simp only [beq_iff_eq, Bool.false_eq_true, if_false]
              omega
          | true =>
              rw [hack] at hsum
              simp only [Bool.toNat_true] at hsum
              simp only [beq_self_eq_true, if_true]
              omega

/-! ### Every burst is answered -/

/-- The answer to COMWAKE is over only after that to COMRESET. -/
theorem Follows.isDone_iff (hf : h.Follows events threshold n) :
    h.isDone = true ↔ ∃ q < n, SecondPulse events threshold q ∧ 2 ≤ answersSince events q n := by
  rw [← hf.comwake.eq_sent_iff fun _ _ => SecondPulse.unique, isDone, Bool.and_eq_true, beq_iff_eq,
    beq_iff_eq]
  refine ⟨And.right, fun hw => ⟨?_, hw⟩⟩
  obtain ⟨q, hq, ⟨p, hp, ⟨hlt, -, htwo⟩, -⟩, -⟩ :=
    (hf.comwake.eq_sent_iff fun _ _ => SecondPulse.unique).mp hw
  refine (hf.cominit.eq_sent_iff fun _ _ => FirstPulse.unique).mpr ⟨p, by omega, hp, ?_⟩
  exact Nat.le_trans htwo (answersSince_mono (Nat.le_of_lt hq))

/-- **Every burst is acknowledged once and answered once.** In a run of a handshake that has just
been reset, as a new one is, whatever the host drives and however the steps of the two sides fall,
at most two transmit steps acknowledge a burst: the earliest with COMINIT that ends a run of at
least as many idle steps as the threshold says, and the earliest with COMWAKE that has two receive
steps between itself and the first. COMINIT is answered in the first receive step after the first
of them and COMWAKE in the first one after the second, and in no other. The handshake is done once
two receive steps have followed the second, and stays so. -/
theorem answers_bursts (h : Handshake) (events : List HandshakeEvent) :
    let first := FirstPulse events h.idleThreshold
    let second := SecondPulse events h.idleThreshold
    let before := fun n => h.reset.after (events.take n)
    (h.reset.acknowledgments events).count true ≤ 2 ∧
    (∀ n cominit comwake elecidle, events[n]? = some (.listen cominit comwake elecidle) →
      (((before n).listen cominit comwake elecidle).1 = true ↔ first n ∨ second n)) ∧
    (∀ n, events[n]? = some .answer →
      ((before n).answer.1.cominit = true ↔ ∃ p < n, first p ∧ answersSince events p n = 0) ∧
      ((before n).answer.1.comwake = true ↔ ∃ q < n, second q ∧ answersSince events q n = 0)) ∧
    (∀ n ≤ events.length,
      ((before n).isDone = true ↔ ∃ q < n, second q ∧ 2 ≤ answersSince events q n)) ∧
    ∀ m n, m ≤ n → n ≤ events.length → (before m).isDone = true → (before n).isDone = true := by
  intro first second before
  have hfollows : ∀ n ≤ events.length, (before n).Follows events h.idleThreshold n :=
    fun n hn => follows h events hn
  refine ⟨count_acknowledgments_le h.reset events, ?_, ?_, fun n hn => (hfollows n hn).isDone_iff,
    ?_⟩
  · intro n cominit comwake elecidle he
    have hn := (List.getElem?_eq_some_iff.mp he).1
    exact (hfollows n (Nat.le_of_lt hn)).listen_iff he
  · intro n he
    have hf := hfollows n (Nat.le_of_lt (List.getElem?_eq_some_iff.mp he).1)
    refine ⟨?_, ?_⟩
    · rw [← hf.cominit.next_eq_asserted_iff fun _ _ => FirstPulse.unique]
      exact beq_iff_eq
    · rw [← hf.comwake.next_eq_asserted_iff fun _ _ => SecondPulse.unique]
      exact beq_iff_eq
  · intro m n hmn hn hdone
    rw [(hfollows m (Nat.le_trans hmn hn)).isDone_iff] at hdone
    rw [(hfollows n hn).isDone_iff]
    obtain ⟨q, hq, hpulse, htwo⟩ := hdone
    exact ⟨q, by omega, hpulse, Nat.le_trans htwo (answersSince_mono hmn)⟩

/-- COMWAKE that comes too early is not heard, and COMINIT only once. -/
example : (new 1).acknowledgments
    [.listen true true true, .answer, .listen false true true, .answer, .listen true true false] =
      [true, false, true] := by
  decide

end Handshake

end SerialAta
