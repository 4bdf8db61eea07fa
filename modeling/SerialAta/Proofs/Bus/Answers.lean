import SerialAta.Bus.Keystream
import SerialAta.Proofs.Bus.Beats
import SerialAta.Proofs.Bus.Ring
/-!
# SerialAta.Proofs.Bus.Answers

**The bus memory answers every request exactly once, after exactly its delay**
(`BusRun.answers_after_delay`), as long as the bus cycle goes on, and each answer is that of a
memory in which all accepted requests have been carried out in order.

A run is compared with an ideal bus that has neither a ring nor cells: the words of the memory are
what the accepted writes have made of them, one after another (`BusRun.contents`), and the
responses on their way are kept by age, in a line without end (`BusRun.pipeline`). One step keeps
the two together (`BusRun.Follows.step`). What the ideal bus does can be read off the run
(`BusRun.pipeline_eq_some_iff`).
-/

namespace SerialAta

namespace BusMemory

variable {σ : Type}

/-! ### The ideal bus -/

/-- The memory as an ideal bus has it: its words, and the responses on their way. -/
structure Models (m : BusMemory σ) (words : Nat → UInt32) (r : Pipeline) : Prop where
  divided : m.Divided
  word : m.word = words
  responses : m.responses.Holds m.width r

variable {m : BusMemory σ} {words : Nat → UInt32} {r : Pipeline}

/-- A new memory is zero, and no response is on its way. -/
theorem models_new {parameters : BusParameters} {stalls : σ}
    (hnew : new parameters stalls = .ok m) :
    m.Models (fun _ => 0) .empty ∧ m.width = parameters.wordsPerBeat.toNat ∧
      m.responses.delay = parameters.delay.toNat := by
  have hdivided := divided_new hnew
  obtain ⟨hdelay, -, rfl⟩ := new_ok hnew
  refine ⟨⟨hdivided, ?_, DelayLine.holds_new ..⟩, rfl, Nat.max_eq_left hdelay⟩
  funext i
  exact Store.get_zeros ..

theorem Models.cleared (h : m.Models words r) :
    ({ m with responses := m.responses.clear } : BusMemory σ).Models words .empty :=
  ⟨h.divided.of_eq rfl rfl, h.word, h.responses.clear⟩

/-- A request that is accepted. -/
theorem Models.accept (h : m.Models words r) (req : BusRequest) :
    (m.accept req).Models (if req.we then req.written m.width m.capacity words else words)
      (r.joined (req.response m.width m.capacity words)) := by
  refine ⟨h.divided.of_eq (width_accept ..) (capacity_accept ..), ?_, ?_⟩
  · funext i
    rw [word_accept h.divided, h.word]
    split <;> rfl
  · rw [responses_accept, width_accept, h.word]
    refine h.responses.put fun given hgiven => ?_
    rw [BusRequest.response] at hgiven
    split at hgiven
    · cases hgiven
    · obtain rfl := Option.some.inj hgiven
      exact Nat.le_of_eq (BusRequest.length_asked ..).symm

/-! ### Steps -/

variable [StallPolicy σ] {req : BusRequest}

/-- Whether the request of a step is turned down, and the source of stalls after that. -/
def decision (m : BusMemory σ) (req : BusRequest) : Bool × σ :=
  if req.stb then StallPolicy.next m.stalls else (false, m.stalls)

/-- The memory after a step in which no request is accepted. -/
def waited (m : BusMemory σ) (req : BusRequest) (out : List UInt32) : BusMemory σ :=
  { m with
    responses := (m.responses.tick out).2.2
    stalls := (m.decision req).2 }

theorem step_of_not_cyc (h : req.cyc = false) (out : List UInt32) :
    m.step req out =
      ({ stall := false, ack := false }, out, { m with responses := m.responses.clear }) := by
  simp only [step, h, Bool.not_false, if_true]

theorem step_of_cyc (h : req.cyc = true) (out : List UInt32) :
    m.step req out =
      ({ stall := (m.decision req).1, ack := (m.responses.tick out).1 },
        (m.responses.tick out).2.1,
        if req.stb && !(m.decision req).1 then (m.waited req out).accept req
        else m.waited req out) := by
  by_cases hstb : req.stb = true
  · by_cases hstall : (StallPolicy.next m.stalls).1 = true
    · simp [step, h, decision, waited, hstb, hstall]
    · simp [step, h, decision, waited, hstb, hstall]
  · simp [step, h, decision, waited, hstb]

/-- A step leaves the buffer of the master as long as it is. -/
theorem length_step {out out' : List UInt32} {reply : BusReply} {m' : BusMemory σ}
    (hstep : m.step req out = (reply, out', m')) : out'.length = out.length := by
  cases hcyc : req.cyc with
  | false =>
      rw [step_of_not_cyc hcyc] at hstep
      cases hstep
      rfl
  | true =>
      rw [step_of_cyc hcyc] at hstep
      cases hstep
      exact length_overlay ..

@[simp] theorem delay_step (m : BusMemory σ) (req : BusRequest) (out : List UInt32) :
    (m.step req out).2.2.responses.delay = m.responses.delay := by
  cases hcyc : req.cyc with
  | false =>
      rw [step_of_not_cyc hcyc]
      exact DelayLine.delay_clear ..
  | true =>
      have hwaited : (m.waited req out).responses.delay = m.responses.delay :=
        DelayLine.delay_tick m.responses out
      rw [step_of_cyc hcyc]
      dsimp only
      split
      · rw [responses_accept, DelayLine.put, DelayLine.delay_modifySlot, hwaited]
      · exact hwaited

theorem Models.waited (h : m.Models words r) (req : BusRequest) (out : List UInt32) :
    (m.waited req out).Models words r.aged :=
  ⟨h.divided.of_eq rfl rfl, h.word, h.responses.tick out⟩

end BusMemory

/-! ### Runs -/

/-- A run of a bus memory: where it starts, and in each step what the master drives and what is
in its buffer. -/
structure BusRun (σ : Type) where
  start : BusMemory σ
  request : Nat → BusRequest
  buffer : Nat → List UInt32

namespace BusRun

variable {σ : Type} [StallPolicy σ]

/-- The memory before step `t`. -/
def memory (run : BusRun σ) : (t : Nat) → BusMemory σ
  | 0 => run.start
  | t + 1 => ((run.memory t).step (run.request t) (run.buffer t)).2.2

/-- What the memory replies in step `t`. -/
def reply (run : BusRun σ) (t : Nat) : BusReply :=
  ((run.memory t).step (run.request t) (run.buffer t)).1

/-- The buffer after step `t`. -/
def output (run : BusRun σ) (t : Nat) : List UInt32 :=
  ((run.memory t).step (run.request t) (run.buffer t)).2.1

/-- In step `t` a request is made and not turned down. -/
def accepted (run : BusRun σ) (t : Nat) : Bool :=
  (run.request t).cyc && (run.request t).stb && !(run.reply t).stall

/-- The words of the memory before step `t`: what the writes accepted in earlier steps have made
of those at the start, one after another. -/
def contents (run : BusRun σ) : (t : Nat) → Nat → UInt32
  | 0 => run.start.word
  | t + 1 =>
    if run.accepted t && (run.request t).we then
      (run.request t).written run.start.width run.start.capacity (run.contents t)
    else run.contents t

/-- The response to the request of step `t`, with the words as they are then. -/
def response (run : BusRun σ) (t : Nat) : Option (List UInt32) :=
  (run.request t).response run.start.width run.start.capacity (run.contents t)

/-- The responses on their way before step `t`. -/
def pipeline (run : BusRun σ) : (t : Nat) → Pipeline
  | 0 => .empty
  | t + 1 =>
    if (run.request t).cyc then
      if run.accepted t then (run.pipeline t).aged.joined (run.response t)
      else (run.pipeline t).aged
    else .empty

variable {run : BusRun σ} {t : Nat}

theorem accepted_of_cyc (hcyc : (run.request t).cyc = true) :
    run.accepted t =
      ((run.request t).stb && !((run.memory t).decision (run.request t)).1) := by
  rw [accepted, reply, BusMemory.step_of_cyc hcyc, hcyc, Bool.true_and]

theorem contents_of_not_accepted (h : run.accepted t = false) :
    run.contents (t + 1) = run.contents t := by
  rw [contents, h, Bool.false_and, if_neg Bool.false_ne_true]

/-- The memory before step `t` is as the ideal bus has it, and of the size that it had at the
start. -/
structure Follows (run : BusRun σ) (t : Nat) : Prop where
  width : (run.memory t).width = run.start.width
  capacity : (run.memory t).capacity = run.start.capacity
  delay : (run.memory t).responses.delay = run.start.responses.delay
  models : (run.memory t).Models (run.contents t) (run.pipeline t)

/-- One step keeps the memory and the ideal bus together. -/
theorem Follows.step (h : run.Follows t) : run.Follows (t + 1) := by
  obtain ⟨hwidth, hcapacity, hdelay, hmodels⟩ := h
  cases hcyc : (run.request t).cyc with
  | false =>
      have haccepted : run.accepted t = false := by
        rw [accepted, hcyc, Bool.false_and, Bool.false_and]
      have hpipeline : run.pipeline (t + 1) = .empty := by
        rw [pipeline, hcyc, if_neg Bool.false_ne_true]
      refine ⟨?_, ?_, ?_, ?_⟩ <;> rw [memory, BusMemory.step_of_not_cyc hcyc]
      · exact hwidth
      · exact hcapacity
      · exact (DelayLine.delay_clear _).trans hdelay
      · rw [contents_of_not_accepted haccepted, hpipeline]
        exact hmodels.cleared
  | true =>
      let waited := (run.memory t).waited (run.request t) (run.buffer t)
      have hwaited : waited.Models (run.contents t) (run.pipeline t).aged := hmodels.waited _ _
      have hdelay' : waited.responses.delay = run.start.responses.delay :=
        (DelayLine.delay_tick _ (run.buffer t)).trans hdelay
      have hmemory : run.memory (t + 1) =
          if run.accepted t then waited.accept (run.request t) else waited := by
        rw [memory, BusMemory.step_of_cyc hcyc, accepted_of_cyc hcyc]
      have hpipeline : run.pipeline (t + 1) =
          if run.accepted t then (run.pipeline t).aged.joined (run.response t)
          else (run.pipeline t).aged := by
        rw [pipeline, if_pos hcyc]
      cases haccepted : run.accepted t with
      | false =>
          rw [haccepted, if_neg Bool.false_ne_true] at hmemory hpipeline
          refine ⟨?_, ?_, ?_, ?_⟩ <;> rw [hmemory]
          · exact hwidth
          · exact hcapacity
          · exact hdelay'
          · rw [contents_of_not_accepted haccepted, hpipeline]
            exact hwaited
      | true =>
          rw [haccepted, if_pos rfl] at hmemory hpipeline
          have hcontents : run.contents (t + 1) =
              if (run.request t).we then (run.request t).written run.start.width
                run.start.capacity (run.contents t) else run.contents t := by
            rw [contents, haccepted, Bool.true_and]
          have hnext := hwaited.accept (run.request t)
          rw [show waited.width = run.start.width from hwidth,
            show waited.capacity = run.start.capacity from hcapacity, ← hcontents] at hnext
          refine ⟨?_, ?_, ?_, ?_⟩ <;> rw [hmemory]
          · exact (BusMemory.width_accept ..).trans hwidth
          · exact (BusMemory.capacity_accept ..).trans hcapacity
          · rw [BusMemory.responses_accept]
            exact (DelayLine.delay_modifySlot ..).trans hdelay'
          · rw [hpipeline]
            exact hnext

/-- The memory follows the ideal bus in every run that begins with no response on its way. -/
theorem follows (hstart : run.start.Models run.start.word .empty) (t : Nat) : run.Follows t := by
  induction t with
  | zero => exact ⟨rfl, rfl, rfl, hstart⟩
  | succ t ih => exact ih.step

/-! ### What the ideal bus does -/

/-- Before step `t` the responses on their way are those to the accepted requests since which the
bus cycle has gone on. -/
theorem pipeline_eq_some_iff {age : Nat} {words : Option (List UInt32)} :
    run.pipeline t age = some words ↔
      age < t ∧ run.accepted (t - 1 - age) = true ∧
        (∀ s, t - 1 - age ≤ s → s < t → (run.request s).cyc = true) ∧
        words = run.response (t - 1 - age) := by
  induction t generalizing age with
  | zero =>
      constructor
      · intro hnone
        cases hnone
      · rintro ⟨hlt, -⟩
        omega
  | succ t ih =>
      rw [pipeline]
      cases hcyc : (run.request t).cyc with
      | false =>
          constructor
          · intro hnone
            cases hnone
          · rintro ⟨hlt, -, hall, -⟩
            have hlast := hall t (by omega) (by omega)
            rw [hcyc] at hlast
            cases hlast
      | true =>
          rw [if_pos rfl]
          cases age with
          | zero =>
              -- Only a request of step `t` itself is that young.
              have hself : t + 1 - 1 - 0 = t := rfl
              have hall : ∀ s, t ≤ s → s < t + 1 → (run.request s).cyc = true := by
                intro s hle hlt
                obtain rfl : s = t := by omega
                exact hcyc
              rw [hself]
              cases haccepted : run.accepted t with
              | false => simp [Pipeline.aged]
              | true =>
                  rw [if_pos rfl, Pipeline.joined_zero rfl, Option.some_inj]
                  exact ⟨fun heq => ⟨Nat.succ_pos t, rfl, hall, heq.symm⟩,
                    fun h => h.2.2.2.symm⟩
          | succ age =>
              have hshift : t + 1 - 1 - (age + 1) = t - 1 - age := by omega
              have hold : (if run.accepted t then (run.pipeline t).aged.joined (run.response t)
                  else (run.pipeline t).aged) (age + 1) = run.pipeline t age := by
                split <;> rfl
              rw [hold, ih, hshift]
              constructor
              · rintro ⟨hlt, haccepted, hall, heq⟩
                refine ⟨by omega, haccepted, fun s hle hs => ?_, heq⟩
                rcases Nat.lt_succ_iff_lt_or_eq.mp hs with hs | rfl
                · exact hall s hle hs
                · exact hcyc
              · rintro ⟨hlt, haccepted, hall, heq⟩
                exact ⟨by omega, haccepted, fun s hle hs => hall s hle (by omega), heq⟩

/-! ### Every request is answered -/

/-- The memory acknowledges, in a step of a bus cycle, what has one step to go. -/
theorem Follows.reply (h : run.Follows t) (hcyc : (run.request t).cyc = true) :
    let due := run.pipeline t (run.start.responses.delay - 1)
    (run.reply t).ack = due.isSome ∧
      ∀ words, due = some (some words) →
        run.output t = overlay (words.take run.start.width) (run.buffer t) := by
  obtain ⟨hack, hout⟩ := h.models.responses.tick_fst (run.buffer t)
  rw [h.delay] at hack hout
  rw [h.width] at hout
  rw [BusRun.reply, output, BusMemory.step_of_cyc hcyc]
  exact ⟨hack, hout⟩

/-- What has one step to go in a step of a bus cycle. -/
theorem due_eq_some_iff {delay : Nat} (hpos : 1 ≤ delay) (hcyc : (run.request t).cyc = true)
    {words : Option (List UInt32)} :
    run.pipeline t (delay - 1) = some words ↔
      delay ≤ t ∧ run.accepted (t - delay) = true ∧
        (∀ s, t - delay ≤ s → s ≤ t → (run.request s).cyc = true) ∧
        words = run.response (t - delay) := by
  have hsteps : t - 1 - (delay - 1) = t - delay := by omega
  rw [pipeline_eq_some_iff, hsteps]
  constructor
  · rintro ⟨hlt, haccepted, hall, heq⟩
    refine ⟨by omega, haccepted, fun s hle hs => ?_, heq⟩
    rcases Nat.lt_or_eq_of_le hs with hs | rfl
    · exact hall s hle hs
    · exact hcyc
  · rintro ⟨hle, haccepted, hall, heq⟩
    exact ⟨by omega, haccepted, fun s hle hs => hall s hle (by omega), heq⟩

/-- In a run that begins with no response on its way, an acknowledgment is that of the request
that was accepted the delay ago, if the bus cycle has gone on since, and with it come the words of
the response. -/
theorem ack_iff (hstart : run.start.Models run.start.word .empty) (t : Nat) :
    let delay := run.start.responses.delay
    ((run.reply t).ack = true ↔
      delay ≤ t ∧ run.accepted (t - delay) = true ∧
        ∀ s, t - delay ≤ s → s ≤ t → (run.request s).cyc = true) ∧
    ∀ words, (run.reply t).ack = true → run.response (t - delay) = some words →
      run.output t = overlay (words.take run.start.width) (run.buffer t) := by
  intro delay
  have hpos : 1 ≤ delay := hstart.responses.delay_pos
  cases hcyc : (run.request t).cyc with
  | false =>
      have hack : (run.reply t).ack = false := by rw [reply, BusMemory.step_of_not_cyc hcyc]
      rw [hack]
      refine ⟨⟨nofun, fun ⟨_, _, hall⟩ => ?_⟩, fun _ => nofun⟩
      have hlast := hall t (by omega) (by omega)
      rw [hcyc] at hlast
      cases hlast
  | true =>
      obtain ⟨hack, hout⟩ := (run.follows hstart t).reply hcyc
      rw [hack, Option.isSome_iff_exists]
      refine ⟨⟨?_, ?_⟩, ?_⟩
      · rintro ⟨words, hwords⟩
        obtain ⟨hle, haccepted, hall, -⟩ := (due_eq_some_iff hpos hcyc).mp hwords
        exact ⟨hle, haccepted, hall⟩
      · rintro ⟨hle, haccepted, hall⟩
        exact ⟨_, (due_eq_some_iff hpos hcyc).mpr ⟨hle, haccepted, hall, rfl⟩⟩
      · rintro words ⟨given, hgiven⟩ hresponse
        obtain ⟨-, -, -, rfl⟩ := (due_eq_some_iff hpos hcyc).mp hgiven
        exact hout words (hgiven.trans (congrArg some hresponse))

/-- **Every accepted request is answered exactly once, after exactly the delay.** In a run of a new
memory, whatever the master drives and whichever requests are turned down, a step acknowledges if
and only if a request was accepted the delay ago and the bus cycle has gone on since. If it was a
read, the words that it asked for are laid over the buffer, as the memory had them then. The
memory is at any time what the writes accepted so far have made of zeros, and there are never
more responses on their way than the delay has steps. -/
theorem answers_after_delay {parameters : BusParameters} {stalls : σ}
    (hnew : BusMemory.new parameters stalls = .ok run.start) (t : Nat) :
    let delay := parameters.delay.toNat
    let width := parameters.wordsPerBeat.toNat
    let capacity := run.start.capacity
    ((run.reply t).ack = true ↔
      delay ≤ t ∧ run.accepted (t - delay) = true ∧
        ∀ s, t - delay ≤ s → s ≤ t → (run.request s).cyc = true) ∧
    ((run.reply t).ack = true → (run.request (t - delay)).we = false →
      run.output t =
        overlay ((run.request (t - delay)).asked width capacity (run.contents (t - delay)))
          (run.buffer t)) ∧
    (∀ addr, run.contents 0 addr = 0) ∧
    (∀ addr, (run.memory t).word addr = run.contents t (addr % capacity)) ∧
    (run.memory t).inFlight ≤ delay := by
  intro delay width capacity
  obtain ⟨hmodels, hwidth, hdelay⟩ := BusMemory.models_new hnew
  have hstart : run.start.Models run.start.word .empty :=
    ⟨hmodels.divided, rfl, hmodels.responses⟩
  obtain ⟨-, hcapacity, hkept, hfollows⟩ := run.follows hstart t
  obtain ⟨hack, hout⟩ := run.ack_iff hstart t
  rw [hdelay] at hack hout
  refine ⟨hack, fun hsome hread => ?_, fun addr => ?_, fun addr => ?_, ?_⟩
  · have hresponse : run.response (t - delay) =
        some ((run.request (t - delay)).asked width capacity (run.contents (t - delay))) := by
      rw [response, BusRequest.response, if_neg (by rw [hread]; decide), hwidth]
    have hlength := (run.request (t - delay)).length_asked width capacity (run.contents (t - delay))
    rw [hout _ hsome hresponse, hwidth, List.take_of_length_le (Nat.le_of_eq hlength)]
  · exact congrFun hmodels.word addr
  · rw [← hfollows.word, ← BusMemory.word_mod, hcapacity]
  · calc (run.memory t).inFlight
        ≤ (run.memory t).responses.delay := hfollows.responses.inFlight_le
      _ = delay := hkept.trans hdelay

/-- A beat that is written and asked for in the step after, behind a delay of three steps. -/
theorem answers_after_delay_beat :
    let parameters : BusParameters := { BusParameters.standard with
      words := 16, delay := 3, stallOneIn := 0, wordsPerBeat := 2 }
    let run : BusRun RandomStalls :=
      { start := .zeroed 16 3 2 (.ofSeed 0 0)
        request := fun t =>
          { cyc := true, stb := t < 2, we := t = 0, addr := 5, data := [0x11, 0x22], sel := 0xFF }
        buffer := fun _ => [0, 0] }
    BusMemory.ofParameters parameters (Keystream.ofSeed 0) = .ok run.start ∧
      (run.reply 4).ack = true ∧ run.output 4 = [0x11, 0x22] := by
  intro parameters run
  have hnew : BusMemory.ofParameters parameters (Keystream.ofSeed 0) = .ok run.start :=
    BusMemory.new_of_valid (by decide) (by decide) _
  obtain ⟨hack, hread, -⟩ := answers_after_delay hnew 4
  have haccepted : run.accepted 1 = true := by decide +kernel
  have hsome : (run.reply 4).ack = true := hack.mpr ⟨by decide, haccepted, fun _ _ _ => rfl⟩
  refine ⟨hnew, hsome, ?_⟩
  rw [hread hsome rfl]
  decide +kernel

end BusRun

end SerialAta
