import SerialAta.Proofs.Bus.Answers
/-!
# SerialAta.Proofs.Bus.Queue

**A bus memory as a queue.** A master that counts acknowledgments need not know when they come,
only in which order. For it a memory is its words and the responses that it still owes, oldest
first (`BusMemory.Owes`): in a step of a bus cycle it may give out the first of them, and a request
that it accepts puts one behind the last (`BusMemory.Owes.step`). Delay and stalls do not occur
any more.

A memory comes into that state with whatever is done to it (`BusMemory.Reached`), and its size
stays what it was made with.
-/

namespace SerialAta

namespace Pipeline

/-- The responses that are younger than `d` steps, oldest first. -/
def line (r : Pipeline) : (d : Nat) → List (Option (List UInt32))
  | 0 => []
  | d + 1 => (r d).toList ++ r.line d

theorem length_line (r : Pipeline) (d : Nat) :
    (r.line d).length = (List.range d).countP fun age => (r age).isSome := by
  induction d with
  | zero => rfl
  | succ d ih =>
      rw [line, List.length_append, ih, List.range_succ, List.countP_append, Nat.add_comm]
      cases hage : r d <;> simp [hage]

/-- After a step, all responses are younger than a step more. -/
theorem line_aged (r : Pipeline) (d : Nat) : r.aged.line (d + 1) = r.line d := by
  induction d with
  | zero => rfl
  | succ d ih => rw [line, ih, line, aged]

/-- A response that is put on its way is the youngest. -/
theorem line_joined {r : Pipeline} (h : r 0 = none) (words : Option (List UInt32)) (d : Nat) :
    (r.joined words).line (d + 1) = r.line (d + 1) ++ [words] := by
  induction d with
  | zero => simp [line, joined_zero h, h]
  | succ d ih =>
      show (r (d + 1)).toList ++ (r.joined words).line (d + 1) =
        ((r (d + 1)).toList ++ r.line (d + 1)) ++ [words]
      rw [ih, List.append_assoc]

theorem line_empty (d : Nat) : line .empty d = [] := by
  induction d with
  | zero => rfl
  | succ d ih => exact ih

end Pipeline

namespace BusMemory

variable {σ : Type} {m : BusMemory σ} {words : Nat → UInt32} {due : List (Option (List UInt32))}

/-! ### The size of a memory -/

/-- Words of a beat and size of the memory are powers of two. -/
structure Sized (m : BusMemory σ) : Prop where
  width_le : m.width ≤ maxBeatWords
  width : m.width.isPowerOfTwo
  capacity : m.capacity.isPowerOfTwo

theorem Sized.of_eq {m' : BusMemory σ} (h : m.Sized) (hwidth : m'.width = m.width)
    (hcapacity : m'.capacity = m.capacity) : m'.Sized := by
  refine ⟨?_, ?_, ?_⟩
  · rw [hwidth]
    exact h.width_le
  · rw [hwidth]
    exact h.width
  · rw [hcapacity]
    exact h.capacity

theorem sized_new {parameters : BusParameters} {stalls : σ}
    (hnew : new parameters stalls = .ok m) : m.Sized := by
  obtain ⟨-, hwidth, rfl⟩ := new_ok hnew
  simp only [isBeatWidth, Bool.and_eq_true, decide_eq_true_eq] at hwidth
  exact ⟨hwidth.1.2, hwidth.2, isPowerOfTwo_ceilPowerOfTwo _⟩

/-- Beats and addresses come out even: either the addresses meet each beat equally often, or there
are more beats than the addresses reach. -/
theorem Sized.count_dvd_or_dvd (hm : m.Sized) (hdivided : m.Divided) :
    m.capacity / m.width ∣ UInt32.size ∨ UInt32.size ∣ m.capacity / m.width := by
  obtain ⟨a, ha⟩ := hm.width
  obtain ⟨b, hb⟩ := hm.capacity
  have hcount : m.capacity / m.width = 2 ^ (b - a) := by
    have hdvd := hdivided.dvd
    rw [ha, hb] at hdvd ⊢
    exact Nat.pow_div ((Nat.pow_dvd_pow_iff_le_right (by decide)).mp hdvd) (by decide)
  have hsize : UInt32.size = 2 ^ 32 := rfl
  rw [hcount, hsize]
  exact (Nat.le_total _ _).imp (Nat.pow_dvd_pow 2) (Nat.pow_dvd_pow 2)

/-! ### Words and responses -/

/-- The memory has these words and still owes these responses, oldest first. -/
def Owes (m : BusMemory σ) (words : Nat → UInt32) (due : List (Option (List UInt32))) : Prop :=
  ∃ r, m.Models words r ∧ r.line m.responses.delay = due

theorem Owes.divided (h : m.Owes words due) : m.Divided := by
  obtain ⟨r, hr, -⟩ := h
  exact hr.divided

theorem Owes.word (h : m.Owes words due) : m.word = words := by
  obtain ⟨r, hr, -⟩ := h
  exact hr.word

/-- The memory counts what it owes. -/
theorem Owes.inFlight_eq (h : m.Owes words due) : m.inFlight = due.length := by
  obtain ⟨r, hr, rfl⟩ := h
  rw [Pipeline.length_line]
  exact hr.responses.inFlight_eq

/-- The two memories differ in nothing but words and stalls. -/
structure SameBus (m m' : BusMemory σ) : Prop where
  width : m'.width = m.width
  capacity : m'.capacity = m.capacity
  responses : m'.responses = m.responses

theorem SameBus.trans {m₁ m₂ m₃ : BusMemory σ} (h : SameBus m₁ m₂) (h' : SameBus m₂ m₃) :
    SameBus m₁ m₃ :=
  ⟨h'.width.trans h.width, h'.capacity.trans h.capacity, h'.responses.trans h.responses⟩

theorem sameBus_loadWords (m : BusMemory σ) (addr : Nat) (bytes : Bytes) (k n : Nat) :
    SameBus m (m.loadWords addr bytes k n) := by
  induction n generalizing m k with
  | zero => exact ⟨rfl, rfl, rfl⟩
  | succ n ih =>
      have hword : SameBus m (m.setWord (addr + k) (ByteImage.bigWord bytes k)) := ⟨rfl, rfl, rfl⟩
      exact hword.trans (ih _ _)

theorem sameBus_load (m : BusMemory σ) (dir : Directory) (name : String) :
    SameBus m (m.load dir name).2 := by
  have hcleared : SameBus m m.cleared := ⟨rfl, rfl, rfl⟩
  rw [load]
  dsimp only
  split
  · exact hcleared
  · exact hcleared.trans (sameBus_loadWords ..)

theorem Owes.of_sameBus {m' : BusMemory σ} (h : m.Owes words due) (hsame : SameBus m m') :
    m'.Owes m'.word due := by
  obtain ⟨r, hr, hdue⟩ := h
  have hresponses := hr.responses
  rw [← hsame.width, ← hsame.responses] at hresponses
  rw [← hsame.responses] at hdue
  exact ⟨r, ⟨hr.divided.of_eq hsame.width hsame.capacity, rfl, hresponses⟩, hdue⟩

variable [StallPolicy σ] {req : BusRequest}

/-- A step of a bus cycle. -/
theorem Owes.step (h : m.Owes words due) (hcyc : req.cyc = true) {out out' : List UInt32}
    {reply : BusReply} {m' : BusMemory σ} (hstep : m.step req out = (reply, out', m')) :
    m'.width = m.width ∧ m'.capacity = m.capacity ∧
      ∃ given rest, due = Option.toList given ++ rest ∧ reply.ack = given.isSome ∧
        (∀ ws, given = some (some ws) → out' = overlay (ws.take m.width) out) ∧
        if req.stb && !reply.stall then
          m'.Owes (if req.we then req.written m.width m.capacity words else words)
            (rest ++ [req.response m.width m.capacity words])
        else m'.Owes words rest := by
  obtain ⟨r, hr, rfl⟩ := h
  obtain ⟨d, hd⟩ : ∃ d, m.responses.delay = d + 1 :=
    ⟨_, (Nat.sub_add_cancel hr.responses.delay_pos).symm⟩
  obtain ⟨hack, hout⟩ := hr.responses.tick_fst out
  rw [hd, Nat.add_sub_cancel] at hack hout
  have hwaited := hr.waited req out
  have hdelay : (m.waited req out).responses.delay = d + 1 :=
    (DelayLine.delay_tick m.responses out).trans hd
  rw [step_of_cyc hcyc] at hstep
  cases hstep
  refine ⟨?_, ?_, r d, r.line d, by rw [hd, Pipeline.line], hack, hout, ?_⟩
  · split
    · exact width_accept ..
    · rfl
  · split
    · exact capacity_accept ..
    · rfl
  · split
    · refine ⟨_, hwaited.accept req, ?_⟩
      rw [responses_accept, DelayLine.put, DelayLine.delay_modifySlot, hdelay,
        Pipeline.line_joined rfl, Pipeline.line_aged]
      rfl
    · refine ⟨_, hwaited, ?_⟩
      rw [hdelay, Pipeline.line_aged]

/-! ### Everything that can be done to a memory -/

/-- The memory is what can have become of a new one. -/
inductive Reached : BusMemory σ → Prop
  | new {parameters : BusParameters} {stalls : σ} {m : BusMemory σ}
      (hnew : new parameters stalls = .ok m) : Reached m
  | step {m : BusMemory σ} (h : Reached m) (req : BusRequest) (out : List UInt32) :
      Reached (m.step req out).2.2
  | setWord {m : BusMemory σ} (h : Reached m) (addr : Nat) (value : UInt32) :
      Reached (m.setWord addr value)
  | loadBytes {m : BusMemory σ} (h : Reached m) (addr : Nat) (bytes : Bytes) :
      Reached (m.loadBytes addr bytes)
  | load {m : BusMemory σ} (h : Reached m) (dir : Directory) (name : String) :
      Reached (m.load dir name).2

theorem Owes.step_of_not_cyc (h : m.Owes words due) (hcyc : req.cyc = false) (out : List UInt32) :
    (m.step req out).2.2.Owes words [] := by
  obtain ⟨r, hr, -⟩ := h
  rw [BusMemory.step_of_not_cyc hcyc]
  exact ⟨.empty, hr.cleared, Pipeline.line_empty _⟩

theorem Reached.owes (h : m.Reached) : m.Sized ∧ ∃ words due, m.Owes words due := by
  induction h with
  | new hnew =>
      obtain ⟨hmodels, -, -⟩ := models_new hnew
      exact ⟨sized_new hnew, _, _, .empty, hmodels, rfl⟩
  | @step m _ req out ih =>
      obtain ⟨hsized, words, due, h⟩ := ih
      cases hcyc : req.cyc with
      | false =>
          have hnext := h.step_of_not_cyc hcyc out
          rw [BusMemory.step_of_not_cyc hcyc] at hnext ⊢
          exact ⟨hsized.of_eq rfl rfl, _, _, hnext⟩
      | true =>
          rcases hstep : m.step req out with ⟨reply, out', m'⟩
          obtain ⟨hwidth, hcapacity, given, rest, -, -, -, hnext⟩ := h.step hcyc hstep
          refine ⟨hsized.of_eq hwidth hcapacity, ?_⟩
          split at hnext
          · exact ⟨_, _, hnext⟩
          · exact ⟨_, _, hnext⟩
  | setWord _ addr value ih =>
      obtain ⟨hsized, words, due, h⟩ := ih
      exact ⟨hsized.of_eq rfl rfl, _, _, h.of_sameBus ⟨rfl, rfl, rfl⟩⟩
  | @loadBytes m _ addr bytes ih =>
      obtain ⟨hsized, words, due, h⟩ := ih
      have hsame : SameBus m (m.loadBytes addr bytes) := sameBus_loadWords ..
      exact ⟨hsized.of_eq hsame.width hsame.capacity, _, _, h.of_sameBus hsame⟩
  | @load m _ dir name ih =>
      obtain ⟨hsized, words, due, h⟩ := ih
      have hsame := sameBus_load m dir name
      exact ⟨hsized.of_eq hsame.width hsame.capacity, _, _, h.of_sameBus hsame⟩

end BusMemory

end SerialAta
