import SerialAta.Bus.DelayLine
/-!
# SerialAta.Proofs.Bus.Ring

**The ring of the delay line is a line.**

Seen from the head, every slot of the ring has an age: the slot of age `j` was at the head `j`
steps ago (`DelayLine.slotAt`). In ages nothing wraps around. A step makes each slot one step
older, and what it gives out is the slot that had one step to go (`slotAt_tick_succ`,
`tick_fst`).

`DelayLine.Holds` compares the line with an ideal one, a `Pipeline`: responses by age, with no
slots and no size. Each operation has one lemma, and the number of responses is that of the ideal
line (`Holds.inFlight_eq`).
-/

namespace SerialAta

theorem getD_modify {α : Type} (xs : Array α) (i : Nat) (f : α → α) {k : Nat}
    (hk : k < xs.size) (d : α) :
    (xs.modify i f).getD k d = if i = k then f (xs.getD k d) else xs.getD k d := by
  simp only [Array.getD_eq_getD_getElem?, Array.getElem?_modify, Array.getElem?_eq_getElem hk]
  split <;> rfl

/-- Responses by the number of steps since they were accepted, each with words or without. -/
abbrev Pipeline := Nat → Option (Option (List UInt32))

namespace Pipeline

/-- Nothing is on its way. -/
def empty : Pipeline := fun _ => none

/-- The same responses one step later. -/
def aged (r : Pipeline) : Pipeline
  | 0 => none
  | age + 1 => r age

/-- A response is put on its way in the present step. Where there is one already the two are
one, with the words of the later one if it has any. -/
def joined (r : Pipeline) (words : Option (List UInt32)) : Pipeline
  | 0 => some (words <|> (r 0).join)
  | age + 1 => r (age + 1)

theorem joined_zero {r : Pipeline} (h : r 0 = none) (words : Option (List UInt32)) :
    r.joined words 0 = some words := by
  rw [joined, h]
  cases words <;> rfl

end Pipeline

@[simp] theorem DelaySlot.words_release (s : DelaySlot) : s.release.words = s.words := rfl

theorem DelaySlot.release_of_free {s : DelaySlot} (h : s.occupied = false) : s.release = s := by
  rw [release, ← h]

namespace DelayLine

variable {q : DelayLine} {age : Nat}

/-! ### Ages -/

/-- The index of the slot of an age. -/
def behind (q : DelayLine) (age : Nat) : Nat :=
  if age ≤ q.head then q.head - age else q.head + q.capacity - age

/-- The slot that was at the head `age` steps ago. -/
def slotAt (q : DelayLine) (age : Nat) : DelaySlot :=
  q.slots.getD (q.behind age) { occupied := false, words := [] }

/-- The head is a slot, and the ring holds the delay. -/
structure Sound (q : DelayLine) : Prop where
  head_lt : q.head < q.capacity
  delay_pos : 1 ≤ q.delay
  delay_le : q.delay ≤ q.capacity

theorem Sound.behind_lt (h : q.Sound) (hage : age < q.capacity) : q.behind age < q.capacity := by
  have := h.head_lt
  unfold behind
  split <;> omega

/-- Index and age are exchanged by the same function. -/
theorem Sound.behind_behind (h : q.Sound) (hage : age < q.capacity) :
    q.behind (q.behind age) = age := by
  have := h.head_lt
  unfold behind
  repeat' split
  all_goals omega

theorem Sound.behind_inj (h : q.Sound) {i j : Nat} (hi : i < q.capacity) (hj : j < q.capacity)
    (heq : q.behind i = q.behind j) : i = j := by
  rw [← h.behind_behind hi, ← h.behind_behind hj, heq]

/-- The next slot of the head is the oldest one. -/
theorem Sound.next_head (h : q.Sound) : (q.head + 1) % q.capacity = q.behind (q.capacity - 1) := by
  have hhead := h.head_lt
  unfold behind
  by_cases hlast : q.head + 1 = q.capacity
  · rw [hlast, Nat.mod_self, if_pos (by omega)]
    omega
  · rw [Nat.mod_eq_of_lt (by omega), if_neg (by omega)]
    omega

/-- The slot that comes due with the next step has one step to go. -/
theorem Sound.dueAt_next (h : q.Sound) :
    q.dueAt ((q.head + 1) % q.capacity) = q.behind (q.delay - 1) := by
  obtain ⟨hhead, hpos, hle⟩ := h
  unfold dueAt behind
  by_cases hlast : q.head + 1 = q.capacity
  · rw [hlast, Nat.mod_self, if_pos (by omega)]
    by_cases hfull : q.delay = q.capacity
    · rw [hfull, Nat.zero_add, Nat.sub_self, Nat.zero_mod]
      omega
    · rw [Nat.mod_eq_of_lt (by omega)]
      omega
  · rw [Nat.mod_eq_of_lt (by omega : q.head + 1 < q.capacity)]
    by_cases hwrap : q.delay ≤ q.head + 1
    · have hshift : q.head + 1 + q.capacity - q.delay = q.head + 1 - q.delay + q.capacity := by
        omega
      rw [hshift, Nat.add_mod_right, if_pos (by omega), Nat.mod_eq_of_lt (by omega)]
      omega
    · rw [Nat.mod_eq_of_lt (by omega), if_neg (by omega)]
      omega

/-! ### The operations in ages -/

theorem Sound.slotAt_modifySlot (h : q.Sound) (hage : age < q.capacity) {changed : Nat}
    (hchanged : changed < q.capacity) (f : DelaySlot → DelaySlot) :
    (q.modifySlot (q.behind changed) f).slotAt age =
      if age = changed then f (q.slotAt age) else q.slotAt age := by
  have hbehind : (q.modifySlot (q.behind changed) f).behind age = q.behind age := by
    rw [behind, head_modifySlot, capacity_modifySlot]
    rfl
  rw [slotAt, hbehind, slots_modifySlot, getD_modify _ _ _ (h.behind_lt hage)]
  by_cases heq : age = changed
  · rw [if_pos heq, if_pos (heq ▸ rfl)]
    rfl
  · rw [if_neg heq, if_neg fun hidx => heq (h.behind_inj hage hchanged hidx.symm)]
    rfl

theorem Sound.modifySlot (h : q.Sound) (i : Nat) (f : DelaySlot → DelaySlot) :
    (q.modifySlot i f).Sound := by
  refine ⟨?_, ?_, ?_⟩
  · rw [head_modifySlot, capacity_modifySlot]
    exact h.head_lt
  · rw [delay_modifySlot]
    exact h.delay_pos
  · rw [delay_modifySlot, capacity_modifySlot]
    exact h.delay_le

theorem behind_modifySlot (q : DelayLine) (i : Nat) (f : DelaySlot → DelaySlot) (age : Nat) :
    (q.modifySlot i f).behind age = q.behind age := by
  rw [behind, head_modifySlot, capacity_modifySlot]
  rfl

/-- With the head on the oldest slot, every other slot is one step older. -/
theorem Sound.slotAt_turned (h : q.Sound) :
    let turned : DelayLine := { q with head := q.behind (q.capacity - 1) }
    turned.slotAt 0 = q.slotAt (q.capacity - 1) ∧
      ∀ age, age + 1 < q.capacity → turned.slotAt (age + 1) = q.slotAt age := by
  intro turned
  have hhead := h.head_lt
  have hzero : turned.behind 0 = q.behind (q.capacity - 1) := by
    rw [behind, if_pos (Nat.zero_le _), Nat.sub_zero]
  refine ⟨by rw [slotAt, hzero]; rfl, fun age hage => ?_⟩
  have hsucc : turned.behind (age + 1) = q.behind age := by
    show (if age + 1 ≤ q.behind (q.capacity - 1) then q.behind (q.capacity - 1) - (age + 1)
      else q.behind (q.capacity - 1) + q.capacity - (age + 1)) = q.behind age
    unfold behind
    repeat' split
    all_goals omega
  rw [slotAt, hsucc]
  rfl

@[simp] theorem delay_tick (q : DelayLine) (out : List UInt32) :
    (q.tick out).2.2.delay = q.delay := by
  simp [tick]

@[simp] theorem capacity_tick (q : DelayLine) (out : List UInt32) :
    (q.tick out).2.2.capacity = q.capacity := by
  simp [tick, capacity]

theorem Sound.tick (h : q.Sound) (out : List UInt32) : (q.tick out).2.2.Sound := by
  have hhead := h.head_lt
  refine ⟨?_, ?_, ?_⟩
  · rw [capacity_tick]
    exact Nat.mod_lt _ (by omega)
  · rw [delay_tick]
    exact h.delay_pos
  · rw [delay_tick, capacity_tick]
    exact h.delay_le

/-- A step gives out the slot that has one step to go. -/
theorem Sound.tick_fst (h : q.Sound) (out : List UInt32) :
    (q.tick out).1 = (q.slotAt (q.delay - 1)).occupied ∧
      (q.tick out).2.1 = overlay (q.slotAt (q.delay - 1)).words out := by
  rw [slotAt, ← h.dueAt_next]
  exact ⟨rfl, rfl⟩

/-- After a step the slot at the head is free, and every other slot is one step older and free
if it was due. -/
theorem Sound.slotAt_tick (h : q.Sound) (out : List UInt32) :
    (q.tick out).2.2.slotAt 0 = (q.slotAt (q.capacity - 1)).release ∧
      ∀ age, age + 1 < q.capacity → (q.tick out).2.2.slotAt (age + 1) =
        if age + 1 = q.delay then (q.slotAt age).release else q.slotAt age := by
  have hhead := h.head_lt
  have hpos := h.delay_pos
  have hle := h.delay_le
  let due := q.modifySlot (q.behind (q.delay - 1)) .release
  let freed := due.modifySlot (due.behind (due.capacity - 1)) .release
  have hdue : due.Sound := h.modifySlot _ _
  have hcapacity : due.capacity = q.capacity := capacity_modifySlot ..
  have hcapacity' : freed.capacity = q.capacity := (capacity_modifySlot ..).trans hcapacity
  have hfreed : ∀ age, age < q.capacity → freed.slotAt age =
      if age = q.delay - 1 ∨ age = q.capacity - 1 then (q.slotAt age).release
      else q.slotAt age := by
    intro age hage
    rw [hdue.slotAt_modifySlot (hcapacity ▸ hage) (by omega),
      h.slotAt_modifySlot hage (by omega), hcapacity]
    by_cases hold : age = q.delay - 1
    · have hchanged : age = q.delay - 1 ∨ age = q.capacity - 1 := .inl hold
      rw [if_pos hold, if_pos hchanged]
      split <;> rfl
    · rw [if_neg hold]
      by_cases hlast : age = q.capacity - 1
      · rw [if_pos hlast, if_pos (.inr hlast)]
      · rw [if_neg hlast, if_neg (by omega)]
  have hturned : (q.tick out).2.2 = { freed with head := freed.behind (freed.capacity - 1) } := by
    rw [DelayLine.tick]
    dsimp only
    rw [h.dueAt_next, h.next_head, hcapacity', behind_modifySlot, behind_modifySlot]
    simp only [freed, hcapacity, due, behind_modifySlot]
  have hsound : freed.Sound := hdue.modifySlot _ _
  obtain ⟨hzero, hsucc⟩ := hsound.slotAt_turned
  rw [hturned]
  refine ⟨?_, fun age hage => ?_⟩
  · rw [hzero, hcapacity', hfreed _ (by omega), if_pos (.inr rfl)]
  · rw [hsucc age (hcapacity' ▸ hage), hfreed age (by omega)]
    by_cases hdelay : age + 1 = q.delay
    · rw [if_pos (.inl (by omega)), if_pos hdelay]
    · rw [if_neg (by omega), if_neg hdelay]

theorem Sound.put (h : q.Sound) (words : Option (List UInt32)) : (q.put words).Sound :=
  h.modifySlot _ _

theorem Sound.slotAt_put (h : q.Sound) (words : Option (List UInt32)) (hage : age < q.capacity) :
    (q.put words).slotAt age =
      if age = 0 then (q.slotAt age).occupy words else q.slotAt age := by
  have hhead : q.head = q.behind 0 := by
    rw [behind, if_pos (Nat.zero_le _), Nat.sub_zero]
  rw [DelayLine.put, hhead]
  exact h.slotAt_modifySlot hage (by omega) _

/-! ### How many there are -/

/-- The responses are those of all ages. -/
theorem Sound.inFlight_eq_countP (h : q.Sound) :
    q.inFlight = (List.range q.capacity).countP fun age => (q.slotAt age).occupied := by
  let slot : Nat → DelaySlot := fun i => q.slots.getD i { occupied := false, words := [] }
  have hslots : q.slots.toList = (List.range q.capacity).map slot := by
    refine List.ext_getElem (by simp [capacity]) fun i hi _ => ?_
    simp [slot, Array.getD, show i < q.slots.size from hi]
  -- The ages are the indices in another order.
  have hperm : ((List.range q.capacity).map q.behind).Perm (List.range q.capacity) := by
    have hnodup : ((List.range q.capacity).map q.behind).Nodup := by
      refine List.pairwise_map.mpr (List.nodup_range.imp_of_mem fun hi hj hne heq => ?_)
      exact hne (h.behind_inj (List.mem_range.mp hi) (List.mem_range.mp hj) heq)
    refine (List.perm_ext_iff_of_nodup hnodup List.nodup_range).mpr fun i => ?_
    rw [List.mem_map, List.mem_range]
    constructor
    · rintro ⟨age, hage, rfl⟩
      exact h.behind_lt (List.mem_range.mp hage)
    · intro hi
      exact ⟨q.behind i, List.mem_range.mpr (h.behind_lt hi), h.behind_behind hi⟩
  calc q.inFlight
      = q.slots.toList.countP DelaySlot.occupied := by rw [q.inFlight_eq, Array.countP_toList]
    _ = (List.range q.capacity).countP fun i => (slot i).occupied := by
        rw [hslots, List.countP_map]
        rfl
    _ = ((List.range q.capacity).map q.behind).countP fun i => (slot i).occupied :=
        (hperm.countP_eq _).symm
    _ = (List.range q.capacity).countP fun age => (q.slotAt age).occupied := by
        rw [List.countP_map]
        rfl

@[simp] theorem delay_clear (q : DelayLine) : q.clear.delay = q.delay := by
  rw [clear]
  split <;> rfl

@[simp] theorem head_clear (q : DelayLine) : q.clear.head = 0 := by
  rw [clear]
  split <;> rfl

@[simp] theorem capacity_clear (q : DelayLine) : q.clear.capacity = q.capacity := by
  rw [clear]
  split
  · rfl
  · exact Array.size_map

theorem Sound.clear (h : q.Sound) : q.clear.Sound := by
  refine ⟨?_, ?_, ?_⟩
  · have := h.head_lt
    rw [head_clear, capacity_clear]
    omega
  · rw [delay_clear]
    exact h.delay_pos
  · rw [delay_clear, capacity_clear]
    exact h.delay_le

/-- Clearing frees every slot, and may give it another age. -/
theorem Sound.slotAt_clear (h : q.Sound) (hage : age < q.capacity) :
    ∃ old < q.capacity, q.clear.slotAt age = (q.slotAt old).release := by
  let i := q.clear.behind age
  have hi : i < q.capacity := by
    have hlt := h.clear.behind_lt (capacity_clear q ▸ hage)
    rwa [capacity_clear] at hlt
  refine ⟨q.behind i, h.behind_lt hi, ?_⟩
  have hold : q.slotAt (q.behind i) = q.slots.getD i { occupied := false, words := [] } := by
    rw [slotAt, h.behind_behind hi]
  show q.clear.slots.getD i _ = _
  by_cases hnone : q.inFlight = 0
  · have hclear : q.clear.slots = q.slots := by rw [DelayLine.clear, if_pos hnone]
    have hfree : (q.slotAt (q.behind i)).occupied = false := by
      rw [h.inFlight_eq_countP, List.countP_eq_zero] at hnone
      exact Bool.eq_false_iff.mpr (hnone _ (List.mem_range.mpr (h.behind_lt hi)))
    rw [hclear, ← hold, DelaySlot.release_of_free hfree]
  · have hclear : q.clear.slots = q.slots.map .release := by rw [DelayLine.clear, if_neg hnone]
    rw [hclear, hold, Array.getD_eq_getD_getElem?, Array.getD_eq_getD_getElem?, Array.getElem?_map]
    exact Option.getD_map DelaySlot.release { occupied := false, words := [] } _

/-! ### The ideal line -/

/-- The responses on their way in the ring, whose slots have `width` words, are those of the
pipeline that are not older than the delay. -/
structure Holds (q : DelayLine) (width : Nat) (r : Pipeline) : Prop extends q.Sound where
  length : ∀ age < q.capacity, (q.slotAt age).words.length = width
  occupied : ∀ age < q.capacity,
    (q.slotAt age).occupied = (decide (age < q.delay) && (r age).isSome)
  words : ∀ age < q.delay, ∀ words, r age = some (some words) →
    (q.slotAt age).words = words.take width

variable {width : Nat} {r : Pipeline}

theorem holds_new (delay width : Nat) :
    (new delay width).Holds width .empty := by
  have hcapacity : (new delay width).capacity = ceilPowerOfTwo (max delay 1) := Array.size_replicate
  have hle : max delay 1 ≤ (new delay width).capacity := hcapacity ▸ le_ceilPowerOfTwo _
  have hsound : (new delay width).Sound := by
    refine ⟨?_, ?_, hle⟩
    · show 0 < _
      omega
    · show 1 ≤ max delay 1
      omega
  have hslot : ∀ age < (new delay width).capacity, (new delay width).slotAt age =
      { occupied := false, words := List.replicate width 0 } := by
    intro age hage
    have hlt := hsound.behind_lt hage
    rw [hcapacity] at hlt
    have hslots : (new delay width).slots = .replicate (ceilPowerOfTwo (max delay 1))
        { occupied := false, words := List.replicate width 0 } := rfl
    rw [slotAt, hslots, Array.getD_eq_getD_getElem?, Array.getElem?_replicate, if_pos hlt]
    rfl
  refine ⟨hsound, fun age hage => ?_, fun age hage => ?_, fun age _ words hr => ?_⟩
  · rw [hslot age hage, List.length_replicate]
  · rw [hslot age hage]
    exact (Bool.and_false _).symm
  · cases hr

/-- A step gives out what has one step to go. -/
theorem Holds.tick_fst (h : q.Holds width r) (out : List UInt32) :
    (q.tick out).1 = (r (q.delay - 1)).isSome ∧
      ∀ words, r (q.delay - 1) = some (some words) →
        (q.tick out).2.1 = overlay (words.take width) out := by
  have hpos := h.delay_pos
  have hle := h.delay_le
  obtain ⟨hack, hout⟩ := h.toSound.tick_fst out
  rw [hack, hout]
  refine ⟨?_, fun words hr => ?_⟩
  · rw [h.occupied _ (by omega), decide_eq_true (by omega), Bool.true_and]
  · rw [h.words _ (by omega) words hr]

theorem Holds.tick (h : q.Holds width r) (out : List UInt32) :
    (q.tick out).2.2.Holds width r.aged := by
  have hpos := h.delay_pos
  have hle := h.delay_le
  obtain ⟨hzero, hsucc⟩ := h.toSound.slotAt_tick out
  refine ⟨h.toSound.tick out, fun age hage => ?_, fun age hage => ?_,
    fun age hage words hr => ?_⟩
  · rw [capacity_tick] at hage
    cases age with
    | zero => rw [hzero, DelaySlot.words_release, h.length _ (by omega)]
    | succ age =>
        rw [hsucc age hage]
        split
        · exact h.length age (by omega)
        · exact h.length age (by omega)
  · rw [capacity_tick] at hage
    rw [delay_tick]
    cases age with
    | zero =>
        rw [hzero]
        exact (Bool.and_false _).symm
    | succ age =>
        rw [hsucc age hage]
        by_cases hdue : age + 1 = q.delay
        · rw [if_pos hdue, decide_eq_false (by omega)]
          rfl
        · rw [if_neg hdue, h.occupied age (by omega)]
          have hiff : age < q.delay ↔ age + 1 < q.delay := by omega
          rw [decide_eq_decide.mpr hiff]
          rfl
  · rw [delay_tick] at hage
    cases age with
    | zero => cases hr
    | succ age =>
        rw [hsucc age (by omega), if_neg (by omega)]
        exact h.words age (by omega) words hr

theorem Holds.put (h : q.Holds width r) {words : Option (List UInt32)}
    (hwords : ∀ given, words = some given → width ≤ given.length) :
    (q.put words).Holds width (r.joined words) := by
  have hpos := h.delay_pos
  have hle := h.delay_le
  have hcapacity : (q.put words).capacity = q.capacity := capacity_modifySlot ..
  have hdelay : (q.put words).delay = q.delay := delay_modifySlot ..
  have hslot := fun age (hage : age < q.capacity) => h.toSound.slotAt_put words hage
  have hlength : (q.slotAt 0).words.length = width := h.length 0 (by omega)
  have hnew : ∀ given, words = some given →
      ((q.slotAt 0).occupy words).words = given.take width := by
    rintro given rfl
    have hgiven := hwords given rfl
    show overlay given (q.slotAt 0).words = _
    rw [overlay, hlength, List.drop_of_length_le (by omega), List.append_nil]
  refine ⟨h.toSound.put words, fun age hage => ?_, fun age hage => ?_, fun age hage ws hr => ?_⟩
  · rw [hcapacity] at hage
    rw [hslot age hage]
    split
    · next hzero =>
      subst hzero
      cases words with
      | none => exact hlength
      | some given => exact (length_overlay given _).trans hlength
    · exact h.length age hage
  · rw [hcapacity] at hage
    rw [hslot age hage, hdelay]
    cases age with
    | zero =>
        rw [if_pos rfl, decide_eq_true (by omega)]
        rfl
    | succ age => exact h.occupied (age + 1) hage
  · rw [hdelay] at hage
    rw [hslot age (by omega)]
    cases age with
    | zero =>
        have hjoined : (words <|> (r 0).join) = some ws := Option.some.inj hr
        rw [if_pos rfl]
        cases words with
        | none =>
            -- The words are those of an earlier response of the same step.
            exact h.words 0 hage ws (Option.join_eq_some_iff.mp hjoined)
        | some given =>
            obtain rfl := Option.some.inj hjoined
            exact hnew given rfl
    | succ age => exact h.words (age + 1) hage ws hr

theorem Holds.clear (h : q.Holds width r) : q.clear.Holds width .empty := by
  refine ⟨h.toSound.clear, fun age hage => ?_, fun age hage => ?_, fun age _ words hr => ?_⟩
  · obtain ⟨old, hold, heq⟩ := h.toSound.slotAt_clear (capacity_clear q ▸ hage)
    rw [heq, DelaySlot.words_release, h.length old hold]
  · obtain ⟨old, hold, heq⟩ := h.toSound.slotAt_clear (capacity_clear q ▸ hage)
    rw [heq]
    exact (Bool.and_false _).symm
  · cases hr

/-- The line counts the responses that are not older than the delay. -/
theorem Holds.inFlight_eq (h : q.Holds width r) :
    q.inFlight = (List.range q.delay).countP fun age => (r age).isSome := by
  obtain ⟨rest, hrest⟩ : ∃ rest, q.capacity = q.delay + rest :=
    ⟨_, (Nat.add_sub_of_le h.delay_le).symm⟩
  rw [h.toSound.inFlight_eq_countP, hrest, List.range_add, List.countP_append]
  have hold : ((List.range rest).map (q.delay + ·)).countP
      (fun age => (q.slotAt age).occupied) = 0 := by
    refine List.countP_eq_zero.mpr fun age hage => ?_
    obtain ⟨more, hmore, rfl⟩ := List.mem_map.mp hage
    rw [h.occupied _ (by have := List.mem_range.mp hmore; omega), decide_eq_false (by omega)]
    exact Bool.false_ne_true
  rw [hold, Nat.add_zero]
  refine List.countP_congr fun age hage => ?_
  have hlt := List.mem_range.mp hage
  rw [h.occupied _ (by omega), decide_eq_true hlt, Bool.true_and]

theorem Holds.inFlight_le (h : q.Holds width r) : q.inFlight ≤ q.delay := by
  calc q.inFlight
      = (List.range q.delay).countP fun age => (r age).isSome := h.inFlight_eq
    _ ≤ (List.range q.delay).length := List.countP_le_length
    _ = q.delay := List.length_range

end DelayLine

end SerialAta
