import Mathlib.Data.Finset.Card
import SerialAta.Proofs.Bus.Ring
/-!
# SerialAta.Proofs.Bus.CallOrder

**A delay line delays, in whatever order it is called** (`DelayLine.delays_in_any_order`). The bus
ticks its line once in a step and puts at most one request into it; here nothing is taken for
granted but that a request with words has enough of them.

What a line has to do is told by a `DelayRecord` of what has been done to it since it was new or
last cleared: how many steps it has made, and which requests it has accepted after each number of
steps. The record has no slots, no head and no size. Seen by age it is the ideal line with which
`SerialAta.Proofs.Bus.Ring` compares the ring (`DelayRecord.pipeline`), so a call keeps the two
together (`DelayLine.Holds.call`).
-/

namespace SerialAta

theorem countP_range_eq_card (p : Nat → Bool) (n : Nat) :
    (List.range n).countP p = ((Finset.range n).filter fun i => p i = true).card := by
  have hlist : (List.range n).filter (fun i => decide (p i = true)) = (List.range n).filter p :=
    List.filter_congr fun _ _ => Bool.decide_eq_true
  rw [List.countP_eq_length_filter, ← hlist]
  rfl

/-! ### Records -/

/-- What can be done to a delay line. -/
inductive DelayCall
  /-- A step, with what its responses are laid over. -/
  | tick (out : List UInt32)
  /-- A request is accepted, with words or without. -/
  | put (words : Option (List UInt32))
  /-- All responses are dropped. -/
  | clear

/-- What has been done to a delay line since it was new or last cleared. -/
structure DelayRecord where
  /-- The number of steps. -/
  steps : Nat
  /-- The requests accepted after so many steps, oldest first, each with its words if it came with
  words. -/
  accepted : Nat → List (Option (List UInt32))
  /-- Nothing has been accepted after steps to come. -/
  accepted_later : ∀ count, steps < count → accepted count = []

namespace DelayRecord

/-- Nothing has been done. -/
def blank : DelayRecord where
  steps := 0
  accepted := fun _ => []
  accepted_later := fun _ _ => rfl

/-- The record after one more call. -/
def add (r : DelayRecord) : DelayCall → DelayRecord
  | .tick _ =>
    { r with
      steps := r.steps + 1
      accepted_later := fun count h => r.accepted_later count (Nat.lt_of_succ_lt h) }
  | .put words =>
    { r with
      accepted := fun count =>
        if count = r.steps then r.accepted count ++ [words] else r.accepted count
      accepted_later := fun count h => by
        rw [if_neg (Nat.ne_of_gt h)]
        exact r.accepted_later count h }
  | .clear => blank

/-- The record of calls, oldest first. -/
def ofCalls (calls : List DelayCall) : DelayRecord :=
  calls.foldl add blank

/-- The words that came last with a request accepted after `count` steps. -/
def words? (r : DelayRecord) (count : Nat) : Option (List UInt32) :=
  ((r.accepted count).filterMap id).getLast?

/-- The response to all the requests accepted after `count` steps. -/
def response? (r : DelayRecord) (count : Nat) : Option (Option (List UInt32)) :=
  if r.accepted count = [] then none else some (r.words? count)

/-- The responses by age. -/
def pipeline (r : DelayRecord) : Pipeline :=
  fun age => if age ≤ r.steps then r.response? (r.steps - age) else none

variable {r : DelayRecord}

theorem pipeline_blank : blank.pipeline = .empty := by
  funext age
  rw [pipeline]
  split
  · rfl
  · rfl

theorem pipeline_tick (r : DelayRecord) (out : List UInt32) :
    (r.add (.tick out)).pipeline = r.pipeline.aged := by
  funext age
  cases age with
  | zero =>
      have hnone : r.accepted (r.steps + 1) = [] := r.accepted_later _ (Nat.lt_succ_self _)
      exact (if_pos (Nat.zero_le _)).trans (if_pos hnone)
  | succ age =>
      show (if age + 1 ≤ r.steps + 1 then r.response? (r.steps + 1 - (age + 1)) else none) =
        r.pipeline age
      simp only [Nat.add_le_add_iff_right, Nat.add_sub_add_right]
      rfl

theorem join_response? (r : DelayRecord) (count : Nat) :
    (r.response? count).join = r.words? count := by
  unfold response? words?
  split
  · next hnone => rw [hnone]; rfl
  · rfl

theorem pipeline_put (r : DelayRecord) (words : Option (List UInt32)) :
    (r.add (.put words)).pipeline = r.pipeline.joined words := by
  funext age
  cases age with
  | zero =>
      have hnow : (r.add (.put words)).accepted r.steps = r.accepted r.steps ++ [words] :=
        if_pos rfl
      have hwords : (r.add (.put words)).words? r.steps = (words <|> r.words? r.steps) := by
        rw [words?, hnow, List.filterMap_append, List.getLast?_append]
        cases words with
        | none => rfl
        | some given => rfl
      have hresponse : (r.add (.put words)).response? r.steps =
          some (words <|> r.words? r.steps) := by
        rw [response?, hnow, if_neg (by simp), hwords]
      rw [Pipeline.joined, pipeline, pipeline, if_pos (Nat.zero_le _), if_pos (Nat.zero_le _),
        Nat.sub_zero, Nat.sub_zero, join_response?]
      exact hresponse
  | succ age =>
      show (if age + 1 ≤ r.steps then (r.add (.put words)).response? (r.steps - (age + 1))
        else none) = if age + 1 ≤ r.steps then r.response? (r.steps - (age + 1)) else none
      split
      · next hage =>
        have hearlier : (r.add (.put words)).accepted (r.steps - (age + 1)) =
            r.accepted (r.steps - (age + 1)) := if_neg (by omega)
        rw [response?, words?, hearlier]
        rfl
      · rfl

/-- There is a response of an age if a request was accepted so many steps ago. -/
theorem isSome_pipeline_iff {age : Nat} :
    (r.pipeline age).isSome = true ↔ age ≤ r.steps ∧ r.accepted (r.steps - age) ≠ [] := by
  unfold pipeline response?
  split
  · next hage =>
    split
    · next hnone => simp [hnone]
    · next hsome => simp [hsome, hage]
  · next hage => simp [hage]

/-- The responses that are younger than the delay, counted by the number of steps after which their
requests were accepted. -/
theorem countP_pipeline (r : DelayRecord) (delay : Nat) :
    ((List.range delay).countP fun age => (r.pipeline age).isSome) =
      ((Finset.range (r.steps + 1)).filter fun count =>
        r.accepted count ≠ [] ∧ r.steps < count + delay).card := by
  rw [countP_range_eq_card]
  simp only [isSome_pipeline_iff]
  refine Finset.card_bij' (fun age _ => r.steps - age) (fun count _ => r.steps - count) ?_ ?_ ?_ ?_
  · intro age hage
    simp only [Finset.mem_filter, Finset.mem_range] at hage ⊢
    exact ⟨by omega, hage.2.2, by omega⟩
  · intro count hcount
    simp only [Finset.mem_filter, Finset.mem_range] at hcount ⊢
    have hback : r.steps - (r.steps - count) = count := by omega
    rw [hback]
    exact ⟨by omega, by omega, hcount.2.1⟩
  · intro age hage
    simp only [Finset.mem_filter] at hage
    exact Nat.sub_sub_self hage.2.1
  · intro count hcount
    simp only [Finset.mem_filter, Finset.mem_range] at hcount
    exact Nat.sub_sub_self (Nat.le_of_lt_succ hcount.1)

end DelayRecord

namespace DelayLine

variable {q : DelayLine} {width : Nat} {r : DelayRecord}

/-- The line after a call. -/
def call (q : DelayLine) : DelayCall → DelayLine
  | .tick out => (q.tick out).2.2
  | .put words => q.put words
  | .clear => q.clear

/-- The line after calls, the first one first. -/
def afterCalls (q : DelayLine) (calls : List DelayCall) : DelayLine :=
  calls.foldl call q

@[simp] theorem delay_call (q : DelayLine) (c : DelayCall) : (q.call c).delay = q.delay := by
  cases c with
  | tick out => exact delay_tick q out
  | put words => exact delay_modifySlot ..
  | clear => exact delay_clear q

theorem delay_afterCalls (q : DelayLine) (calls : List DelayCall) :
    (q.afterCalls calls).delay = q.delay := by
  induction calls generalizing q with
  | nil => rfl
  | cons c calls ih => exact (ih (q.call c)).trans (delay_call q c)

/-- A call keeps the line and its record together. -/
theorem Holds.call (h : q.Holds width r.pipeline) {c : DelayCall}
    (hwords : ∀ words, c = .put (some words) → width ≤ words.length) :
    (q.call c).Holds width (r.add c).pipeline := by
  cases c with
  | tick out =>
      rw [DelayRecord.pipeline_tick]
      exact h.tick out
  | put words =>
      rw [DelayRecord.pipeline_put]
      exact h.put fun given hgiven => hwords given (congrArg DelayCall.put hgiven)
  | clear =>
      show q.clear.Holds width DelayRecord.blank.pipeline
      rw [DelayRecord.pipeline_blank]
      exact h.clear

theorem Holds.afterCalls (h : q.Holds width r.pipeline) {calls : List DelayCall}
    (hwords : ∀ words, .put (some words) ∈ calls → width ≤ words.length) :
    (q.afterCalls calls).Holds width (calls.foldl DelayRecord.add r).pipeline := by
  induction calls generalizing q r with
  | nil => exact h
  | cons c calls ih =>
      refine ih (h.call fun words hc => hwords words ?_) fun words hmem => hwords words ?_
      · rw [hc]
        exact List.mem_cons_self ..
      · exact List.mem_cons_of_mem _ hmem

/-- Every slot has as many words as the line was made for. -/
theorem Holds.length_of_mem {pipeline : Pipeline} (h : q.Holds width pipeline) {slot : DelaySlot}
    (hslot : slot ∈ q.slots) : slot.words.length = width := by
  obtain ⟨i, hi, rfl⟩ := Array.mem_iff_getElem.mp hslot
  have hlength := h.length (q.behind i) (h.toSound.behind_lt hi)
  rw [slotAt, h.toSound.behind_behind hi, Array.getD, dif_pos hi] at hlength
  exact hlength

/-- A response on its way has enough words. -/
theorem Holds.width_le {pipeline : Pipeline} (h : q.Holds width pipeline) {age : Nat}
    (hage : age < q.delay) {words : List UInt32} (hr : pipeline age = some (some words)) :
    width ≤ words.length := by
  have hlength := h.length age (Nat.lt_of_lt_of_le hage h.delay_le)
  rw [h.words age hage words hr, List.length_take] at hlength
  omega

/-- **A delay line delays, in whatever order it is called.** Whatever has been done to a line, the
step that brings their number since it was new or last cleared to `t` gives a response if and only
if a request was accepted the delay ago, after `t - delay` steps. If words came with requests then,
the last of them are in the front of the output, as many as a slot has, and the rest of the output
is as it was. Of those that are on their way there is one for each number of steps after which a
request was accepted and not yet answered, never more than the delay has steps. All indices are in
range: those of the head and of the slot that is due, and those of the words in each slot. -/
theorem delays_in_any_order {delay width : Nat} (hdelay : 1 ≤ delay) {calls : List DelayCall}
    (hwords : ∀ words, .put (some words) ∈ calls → width ≤ words.length) :
    let q := (new delay width).afterCalls calls
    let r := DelayRecord.ofCalls calls
    let t := r.steps + 1
    (∀ out,
      ((q.tick out).1 = true ↔ delay ≤ t ∧ r.accepted (t - delay) ≠ []) ∧
      (q.tick out).2.1.length = out.length ∧
      ((q.tick out).1 = true → ∀ words, r.words? (t - delay) = some words → ∀ i < out.length,
        (q.tick out).2.1[i]? = if i < width then words[i]? else out[i]?)) ∧
    q.inFlight = ((Finset.range (r.steps + 1)).filter fun count =>
      r.accepted count ≠ [] ∧ r.steps < count + delay).card ∧
    q.inFlight ≤ delay ∧
    q.head < q.slots.size ∧
    delay ≤ (q.head + 1) % q.slots.size + q.slots.size ∧
    q.dueAt ((q.head + 1) % q.slots.size) < q.slots.size ∧
    ∀ slot ∈ q.slots, slot.words.length = width := by
  intro q r t
  have hholds : q.Holds width r.pipeline :=
    (DelayRecord.pipeline_blank ▸ holds_new delay width).afterCalls hwords
  have hdelay' : q.delay = delay :=
    (delay_afterCalls _ calls).trans (Nat.max_eq_left hdelay)
  refine ⟨fun out => ?_, ?_, ?_, hholds.head_lt, ?_, ?_, fun slot => hholds.length_of_mem⟩
  · obtain ⟨hack, hout⟩ := hholds.tick_fst out
    rw [hdelay'] at hack hout
    have hcount : r.steps - (delay - 1) = t - delay := by omega
    have hsome : (q.tick out).1 = true ↔ delay ≤ t ∧ r.accepted (t - delay) ≠ [] := by
      rw [hack, DelayRecord.isSome_pipeline_iff, hcount]
      exact and_congr_left fun _ => by omega
    refine ⟨hsome, length_overlay .., fun hanswer words hlast i hi => ?_⟩
    have hresponse : r.pipeline (delay - 1) = some (some words) := by
      obtain ⟨hle, haccepted⟩ := hsome.mp hanswer
      rw [DelayRecord.pipeline, if_pos (by omega), hcount, DelayRecord.response?,
        if_neg haccepted, hlast]
    rw [hout words hresponse, getElem?_overlay, if_pos hi, List.getElem?_take]
    split
    · next hfront =>
      have hwidth := hholds.width_le (by omega) hresponse
      rw [List.getElem?_eq_getElem (Nat.lt_of_lt_of_le hfront hwidth)]
      rfl
    · rfl
  · rw [hholds.inFlight_eq, hdelay', DelayRecord.countP_pipeline]
  · rw [← hdelay']
    exact hholds.inFlight_le
  · rw [← hdelay']
    exact Nat.le_trans hholds.delay_le (Nat.le_add_left ..)
  · exact Nat.mod_lt _ (Nat.zero_lt_of_lt hholds.head_lt)

/-- Behind a delay of three steps in a ring of four slots, after a response was dropped. Two
requests in the same step have one response, with the words of the only one that has any. -/
theorem delays_in_any_order_three :
    let calls : List DelayCall :=
      [.put (some [1, 2]), .tick [], .clear, .tick [], .put (some [7, 8, 9]), .put none,
        .tick [0], .put none, .tick [0, 0]]
    let q := (new 3 2).afterCalls calls
    (∀ words, .put (some words) ∈ calls → 2 ≤ words.length) ∧ (q.tick [0, 0, 5]).1 = true ∧
      (q.tick [0, 0, 5]).2.1[1]? = some 8 ∧ (q.tick [0, 0, 5]).2.1[2]? = some 5 ∧
      q.inFlight = 2 := by
  intro calls q
  have hwords : ∀ words, .put (some words) ∈ calls → 2 ≤ words.length := by
    intro words hmem
    simp only [calls, List.mem_cons, DelayCall.put.injEq, Option.some.injEq, reduceCtorEq,
      List.not_mem_nil, or_false, false_or] at hmem
    rcases hmem with rfl | rfl <;> decide
  obtain ⟨htick, hcount, -⟩ := delays_in_any_order (by decide : 1 ≤ 3) hwords
  obtain ⟨hack, -, hout⟩ := htick [0, 0, 5]
  have hanswer : (q.tick [0, 0, 5]).1 = true := hack.mpr ⟨by decide, by decide⟩
  refine ⟨hwords, hanswer, ?_, ?_, hcount.trans (by decide)⟩
  · exact hout hanswer [7, 8, 9] (by decide) 1 (by decide)
  · exact hout hanswer [7, 8, 9] (by decide) 2 (by decide)

end DelayLine

end SerialAta
