import SerialAta.Proofs.Bus.Transfers
/-!
# SerialAta.Proofs.Bus.Leftovers

**What a transfer that timed out leaves behind.** The master gives up after its steps without ending
the bus cycle, so the responses to what it has asked for are still on their way, and they carry no
sign of the request that they belong to. The next transfer counts them as its own
(`leftover_taken_for_answer`): a read returns them in place of its first beats, and a write comes to
its end although its last beats have not been accepted.

How far that goes is what `BusMaster.transfers_among_leftovers` says. Of a memory with `n` responses
on their way, a read is late by `n` beats, and a write is short by those of the `n` that are not
replaced by responses of its own. `n` is at most the delay, no transfer that comes to its end makes
it larger, and it is zero as long as none has timed out.
-/

namespace SerialAta

/-! ### Calls one after another -/

/-- A transfer to or from a memory, with the most steps that it may take. -/
inductive BusCall
  | write (addr : UInt32) (words : List UInt32) (limit : Nat)
  | read (addr : UInt32) (beats limit : Nat)

namespace BusCall

variable {σ : Type} [StallPolicy σ]

/-- Whether a call comes to its end, and the memory after it. -/
def perform (m : BusMemory σ) : BusCall → Bool × BusMemory σ
  | write addr words limit =>
    let (result, m) := BusMaster.write m addr words limit
    (result.isOk, m)
  | read addr beats limit =>
    let (result, m) := BusMaster.read m addr beats limit
    (result.isOk, m)

/-- Whether all calls come to their ends, and the memory after them. A call is made also if one
before it has timed out. -/
def performAll (m : BusMemory σ) : List BusCall → Bool × BusMemory σ
  | [] => (true, m)
  | call :: calls =>
    let (ended, m) := call.perform m
    let (allEnded, m) := performAll m calls
    (ended && allEnded, m)

end BusCall

/-- What can be said of a read from `addr` on that has come to its end, where `m` is the memory
before and `m₁` the one after it. -/
structure ReadAmong {σ : Type} (m : BusMemory σ) (addr : UInt32) (beats : Nat)
    (result : List UInt32) (m₁ : BusMemory σ) : Prop where
  length : result.length = beats * m.width
  /-- After the responses that were on their way come the words of the beats, in order. -/
  words : result.drop (m.inFlight * m.width) =
    (List.range (beats - m.inFlight)).flatMap fun i => (List.range m.width).map fun j =>
      m.word ((addr.toNat + i) % UInt32.size * m.width + j)
  capacity : m₁.capacity = m.capacity
  unchanged : ∀ k, m₁.word k = m.word k
  inFlight_le : m₁.inFlight ≤ m.inFlight

/-- What can be said of a write of `beats` beats from `addr` on that has come to its end. -/
structure WriteAmong {σ : Type} (m : BusMemory σ) (addr : UInt32) (beats : Nat)
    (words : List UInt32) (m₁ : BusMemory σ) : Prop where
  /-- The first beats are written; missing are as many as there are fewer responses on their way
  than before. -/
  stored : ∀ i j v, i + m.inFlight < beats + m₁.inFlight → j < m.width →
    words[i * m.width + j]? = some v →
    m₁.word ((addr.toNat + i) % UInt32.size * m.width + j) = v
  capacity : m₁.capacity = m.capacity
  /-- Nothing else is written. -/
  others : ∀ k, (∀ i j, i + m.inFlight < beats + m₁.inFlight → j < m.width →
    i * m.width + j < words.length →
    ((addr.toNat + i) % UInt32.size * m.width + j) % m.capacity ≠ k % m.capacity) →
    m₁.word k = m.word k
  inFlight_le : m₁.inFlight ≤ m.inFlight

namespace BusMaster

variable {σ : Type} [StallPolicy σ] {m : BusMemory σ} {addr : UInt32} {limit : Nat}

/-! ### What the steps keep -/

section Keeps

variable {P : BusMemory σ → Prop} (hstep : ∀ m req out, P m → P (m.step req out).2.2)
include hstep

theorem writeBeats_keeps (h : P m) (addr : UInt32)
    (beats : List (List UInt32)) (awaited left : Nat) :
    P (writeBeats limit m addr beats awaited left).2 := by
  induction left generalizing m addr beats awaited with
  | zero => cases awaited <;> exact h
  | succ left ih =>
      cases awaited with
      | zero => exact h
      | succ awaited =>
          rcases hround : m.step (writeRequest addr beats) [] with ⟨reply, out, m₁⟩
          have h₁ := hstep m (writeRequest addr beats) [] h
          rw [hround] at h₁
          rw [writeBeats_succ hround]
          exact ih h₁ _ _ _

theorem readBeats_keeps (h : P m) (addr : UInt32) (data : Array UInt32)
    (toIssue awaited left : Nat) :
    P (readBeats limit m addr data toIssue awaited left).2 := by
  induction left generalizing m addr data toIssue awaited with
  | zero => cases awaited <;> exact h
  | succ left ih =>
      cases awaited with
      | zero => exact h
      | succ awaited =>
          rcases hround : m.step (readRequest addr toIssue) (List.replicate m.width 0) with
            ⟨reply, out, m₁⟩
          have h₁ := hstep m (readRequest addr toIssue) (List.replicate m.width 0) h
          rw [hround] at h₁
          rw [readBeats_succ hround]
          exact ih h₁ _ _ _ _

theorem read_keeps (h : P m) (addr : UInt32) (beats : Nat) : P (read m addr beats limit).2 := by
  rcases Nat.lt_or_ge maxBytes (4 * (beats * m.width)) with hlong | hroom
  · rw [read_of_lt hlong]
    exact h
  · rw [read_of_le hroom]
    exact readBeats_keeps hstep h ..

/-- What every step of the bus keeps, a call keeps, whether it comes to its end or not. -/
theorem perform_keeps (h : P m) (call : BusCall) : P (call.perform m).2 := by
  cases call with
  | write addr words limit => exact writeBeats_keeps hstep h ..
  | read addr beats limit => exact read_keeps hstep h addr beats

theorem performAll_keeps (h : P m) (calls : List BusCall) :
    P (BusCall.performAll m calls).2 := by
  induction calls generalizing m with
  | nil => exact h
  | cons call calls ih => exact ih (perform_keeps hstep h call)

end Keeps

/-! ### One transfer -/

theorem drop_flatten {α : Type} {width : Nat} {xs : List (List α)}
    (hxs : ∀ x ∈ xs, x.length = width) (n : Nat) :
    xs.flatten.drop (n * width) = (xs.drop n).flatten := by
  induction n generalizing xs with
  | zero => rw [Nat.zero_mul, List.drop_zero, List.drop_zero]
  | succ n ih =>
      cases xs with
      | nil => rw [List.drop_nil, List.flatten_nil, List.drop_nil]
      | cons x xs =>
          have hx := hxs x (List.mem_cons_self ..)
          rw [List.drop_succ_cons, ← ih fun y hy => hxs y (List.mem_cons_of_mem _ hy),
            List.flatten_cons, Nat.succ_mul, Nat.add_comm, ← List.drop_drop, ← hx, List.drop_left]

theorem length_flatten {α : Type} {width : Nat} {xs : List (List α)}
    (hxs : ∀ x ∈ xs, x.length = width) : xs.flatten.length = xs.length * width := by
  rw [List.length_flatten, List.map_congr_left hxs, List.map_const', List.sum_replicate_nat]

theorem readAmong (hm : m.Reached) {beats : Nat} {result : List UInt32}
    (hok : (read m addr beats limit).1 = .ok result) :
    ReadAmong m addr beats result (read m addr beats limit).2 := by
  obtain ⟨-, stored, due, h⟩ := hm.owes
  obtain rfl := h.word
  obtain ⟨hc, ⟨due₁, h₁, hle⟩, answers, rfl, hbeats, hwidth, hanswers⟩ := read_behind h hok
  refine ⟨?_, ?_, hc, fun k => congrFun h₁.word k, ?_⟩
  · rw [length_flatten hwidth, hbeats]
  · rw [drop_flatten hwidth, h.inFlight_eq, hanswers, flatten_beatsRead]
    rfl
  · rw [h₁.inFlight_eq, h.inFlight_eq]
    exact hle

/-- A write that comes to its end, whatever is written and however often its beats meet the same
words. -/
theorem write_inFlight_le (hm : m.Reached) {words : List UInt32} {steps : Nat}
    (hok : (write m addr words limit).1 = .ok steps) :
    (write m addr words limit).2.inFlight ≤ m.inFlight := by
  obtain ⟨hsized, stored, due, h⟩ := hm.owes
  obtain ⟨-, -, n, due₁, hn, hcount, h₁⟩ := write_behind h hsized.width_le hok
  rw [h₁.inFlight_eq, h.inFlight_eq]
  omega

theorem writeAmong (hm : m.Reached) {words : List UInt32}
    (hfit : (words.length + (m.width - 1)) / m.width ≤ m.capacity / m.width)
    (haddresses : (words.length + (m.width - 1)) / m.width ≤ UInt32.size) {steps : Nat}
    (hok : (write m addr words limit).1 = .ok steps) :
    WriteAmong m addr ((words.length + (m.width - 1)) / m.width) words
      (write m addr words limit).2 := by
  have hle := write_inFlight_le hm hok
  obtain ⟨hsized, stored, due, h⟩ := hm.owes
  obtain rfl := h.word
  have hwidth := h.divided.width_pos
  have hlength := @length_chunks _ m.width hwidth words
  obtain ⟨-, hc, n, due₁, hn, hcount, h₁⟩ := write_behind h hsized.width_le hok
  have hwritten : ∀ i, i < n ↔ i + m.inFlight <
      (words.length + (m.width - 1)) / m.width + (write m addr words limit).2.inFlight := by
    intro i
    rw [h.inFlight_eq, h₁.inFlight_eq, ← hlength]
    omega
  refine ⟨?_, hc, ?_, hle⟩
  · intro i j v hi hj hv
    rw [h₁.word]
    refine beatsWritten_wordIndex (hsized.count_dvd_or_dvd h.divided) ?_ hj ?_
    · rw [List.length_take, hlength]
      omega
    · rw [List.getElem?_take_of_lt ((hwritten i).mpr hi), getElem?_chunks _ _ hj, hv]
  · intro k hother
    rw [h₁.word]
    refine beatsWritten_of_other hwidth fun i j v hj hv => ?_
    have hi : i < n := by
      obtain ⟨beat, hbeat, -⟩ := Option.bind_eq_some_iff.mp hv
      have hlt := (List.getElem?_eq_some_iff.mp hbeat).1
      rw [List.length_take] at hlt
      omega
    rw [List.getElem?_take_of_lt hi, getElem?_chunks _ _ hj] at hv
    rw [Nat.mul_div_cancel' h.divided.dvd]
    exact hother i j ((hwritten i).mp hi) hj (List.getElem?_eq_some_iff.mp hv).1

/-! ### Transfers after transfers -/

theorem inFlight_le_delay (hm : m.Reached) : m.inFlight ≤ m.responses.delay := by
  obtain ⟨-, words, due, r, hr, -⟩ := hm.owes
  exact hr.responses.inFlight_le

theorem exists_ok_of_isOk {ε α : Type} {e : Except ε α} (h : e.isOk = true) : ∃ a, e = .ok a := by
  cases e with
  | error => cases h
  | ok a => exact ⟨a, rfl⟩

/-- A call that comes to its end leaves no more responses on their way than it has found. -/
theorem perform_inFlight_le (hm : m.Reached) {call : BusCall}
    (hended : (call.perform m).1 = true) : (call.perform m).2.inFlight ≤ m.inFlight := by
  cases call with
  | write addr words limit =>
      obtain ⟨steps, hok⟩ := exists_ok_of_isOk (e := (write m addr words limit).1) hended
      exact write_inFlight_le hm hok
  | read addr beats limit =>
      obtain ⟨result, hok⟩ := exists_ok_of_isOk (e := (read m addr beats limit).1) hended
      exact (readAmong hm hok).inFlight_le

theorem performAll_inFlight_le (hm : m.Reached) {calls : List BusCall}
    (hended : (BusCall.performAll m calls).1 = true) :
    (BusCall.performAll m calls).2.inFlight ≤ m.inFlight := by
  induction calls generalizing m with
  | nil => exact Nat.le_refl _
  | cons call calls ih =>
      obtain ⟨hfirst, hrest⟩ := Bool.and_eq_true_iff.mp hended
      have hm₁ : (call.perform m).2.Reached :=
        perform_keeps (fun _ req out h => h.step req out) hm call
      exact Nat.le_trans (ih hm₁ hrest) (perform_inFlight_le hm hfirst)

/-- **Transfers after others that have timed out.** Let any transfers be made with a new memory,
whatever their limits. The responses that are then still on their way are no more than the delay,
and there are none if every transfer has come to its end. A read that comes to its end now takes
them for its first beats, and has from there on the words of the beats that it has asked for, in
order; a write that does has stored its beats but for some of the last, of which there are as many
as there are fewer responses on their way afterwards. So without leftovers a read returns the words
of its beats and a write stores all that it was given. -/
theorem transfers_among_leftovers {parameters : BusParameters} {stalls : σ} {start : BusMemory σ}
    (hnew : BusMemory.new parameters stalls = .ok start) (calls : List BusCall) :
    let m := (BusCall.performAll start calls).2
    m.inFlight ≤ parameters.delay.toNat ∧
    ((BusCall.performAll start calls).1 = true → m.inFlight = 0) ∧
    (∀ addr beats limit result, (read m addr beats limit).1 = .ok result →
      ReadAmong m addr beats result (read m addr beats limit).2) ∧
    ∀ addr words limit steps,
      let beats := (words.length + (m.width - 1)) / m.width
      beats ≤ m.capacity / m.width → beats ≤ UInt32.size →
      (write m addr words limit).1 = .ok steps →
        WriteAmong m addr beats words (write m addr words limit).2 := by
  intro m
  have hm : m.Reached := performAll_keeps (fun _ req out h => h.step req out) (.new hnew) calls
  obtain ⟨hmodels, -, hstart⟩ := BusMemory.models_new hnew
  have hdelay : m.responses.delay = parameters.delay.toNat :=
    performAll_keeps (P := fun m => m.responses.delay = parameters.delay.toNat)
      (fun m req out h => (BusMemory.delay_step m req out).trans h) hstart calls
  refine ⟨hdelay ▸ inFlight_le_delay hm, fun hended => ?_, ?_, ?_⟩
  · have hle : m.inFlight ≤ start.inFlight := performAll_inFlight_le (.new hnew) hended
    have hnone : start.inFlight = 0 := by
      obtain ⟨-, -, rfl⟩ := BusMemory.new_ok hnew
      rfl
    omega
  · intro addr beats limit result hok
    exact readAmong hm hok
  · intro addr words limit steps beats hfit haddresses hok
    exact writeAmong hm hfit haddresses hok

/-- After a write that has timed out: the read of two beats has the word of the first beat in second
place, and a write of two beats is complete, since it leaves a response behind, too. -/
theorem transfers_among_leftovers_late :
    let m := (BusCall.performAll (.zeroed 16 3 1 (RandomStalls.ofSeed 0 0)) [.write 0 [7] 1]).2
    m.inFlight = 1 ∧ (read m 0 2 20).1 = .ok [0, 7] ∧ m.word 0 = 7 ∧
      (write m 4 [8, 9] 20).1 = .ok 4 ∧ (write m 4 [8, 9] 20).2.inFlight = 1 ∧
      (write m 4 [8, 9] 20).2.word 5 = 9 := by
  intro m
  have hnew : BusMemory.new { BusParameters.standard with words := 16, delay := 3 }
      (RandomStalls.ofSeed 0 0) = .ok (.zeroed 16 3 1 (.ofSeed 0 0)) :=
    BusMemory.new_of_valid (by decide) (by decide) _
  have hone : m.inFlight = 1 := by decide +kernel
  have hwidth : m.width = 1 := by decide +kernel
  have hresult : (read m 0 2 20).1 = .ok [0, 7] := by decide +kernel
  have hsteps : (write m 4 [8, 9] 20).1 = .ok 4 := by decide +kernel
  have hleft : (write m 4 [8, 9] 20).2.inFlight = 1 := by decide +kernel
  obtain ⟨-, -, hread, hwrite⟩ := transfers_among_leftovers hnew [.write 0 [7] 1]
  have hlate : [7] = [m.word 0] := by
    have hwords : ([0, 7] : List UInt32).drop (m.inFlight * m.width) = _ :=
      (hread 0 2 20 _ hresult).words
    rw [hone, hwidth] at hwords
    exact hwords
  have hstored : (write m 4 [8, 9] 20).2.word (5 * m.width) = 9 := by
    have hwritten := hwrite 4 [8, 9] 20 4 (by decide +kernel) (by decide +kernel) hsteps
    exact hwritten.stored 1 0 9 (by decide +kernel) (by decide +kernel) (by decide +kernel)
  rw [hwidth] at hstored
  exact ⟨hone, hresult, (List.head_eq_of_cons_eq hlate).symm, hsteps, hleft, hstored⟩

/-- The response to a write that has timed out is the answer to a read, and ends a write whose only
beat is turned down. -/
theorem leftover_taken_for_answer :
    (let m : BusMemory RandomStalls := .zeroed 16 3 1 (.ofSeed 0 0)
      let m₁ := (write m 0 [7] 1).2
      BusMemory.new { BusParameters.standard with words := 16, delay := 3 } (.ofSeed 0 0) = .ok m ∧
      (write m 0 [7] 1).1 = .error (.timeout .busWrite 1) ∧ m₁.word 0 = 7 ∧
      (read m₁ 0 1 10).1 = .ok [0]) ∧
    (let m : BusMemory RandomStalls := .zeroed 16 1 1 (.ofSeed 2 1)
      let m₁ := (write m 0 [1] 1).2
      let m₂ := (write m₁ 1 [2] 5).2
      BusMemory.new { BusParameters.standard with words := 16, delay := 1 } (.ofSeed 2 1) = .ok m ∧
      (write m 0 [1] 1).1 = .error (.timeout .busWrite 1) ∧
      (write m₁ 1 [2] 5).1 = .ok 1 ∧ m₂.word 1 = 0) := by
  refine ⟨⟨BusMemory.new_of_valid (by decide) (by decide) _, ?_, ?_, ?_⟩,
    BusMemory.new_of_valid (by decide) (by decide) _, ?_, ?_, ?_⟩
  all_goals decide +kernel

end BusMaster

end SerialAta
