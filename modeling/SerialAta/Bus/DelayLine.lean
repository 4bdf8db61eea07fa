import SerialAta.Storage.Cells
/-!
# SerialAta.Bus.DelayLine

The **delay line** of the bus: it gives every response out a fixed number of steps
after the request was accepted.

The line is a ring of slots. Each step moves the head one slot on (`DelayLine.tick`);
what is accepted goes into the slot at the head (`DelayLine.put`); the slot that lies the
delay behind the head is due. The ring has the least power of two slots that the delay
fits in, so a slot comes due at the latest when the head returns to it. A slot keeps its
words when its response is gone; they show in the output of a step whether or not a
response is due.

The line also keeps count of its responses, and its type says that the count is right.
-/

namespace SerialAta

/-- The least power of two that is at least `n`, which may be of any size; only up to
`maxBytes` can it be that of a list. -/
def ceilPowerOfTwo (n : Nat) : Nat :=
  if n ≤ 1 then 1 else 1 <<< ((n - 1).log2 + 1)

theorem le_ceilPowerOfTwo (n : Nat) : n ≤ ceilPowerOfTwo n := by
  unfold ceilPowerOfTwo
  split
  · assumption
  · have hlog : n - 1 < 1 <<< ((n - 1).log2 + 1) :=
      Nat.lt_of_lt_of_eq Nat.lt_log2_self (Nat.one_shiftLeft _).symm
    omega

theorem isPowerOfTwo_ceilPowerOfTwo (n : Nat) : (ceilPowerOfTwo n).isPowerOfTwo := by
  unfold ceilPowerOfTwo
  split
  · exact ⟨0, rfl⟩
  · exact ⟨_, Nat.one_shiftLeft _⟩

theorem ceilPowerOfTwo_le {n p : Nat} (hp : p.isPowerOfTwo) (hn : n ≤ p) :
    ceilPowerOfTwo n ≤ p := by
  obtain ⟨k, rfl⟩ := hp
  unfold ceilPowerOfTwo
  split
  · exact Nat.two_pow_pos k
  · have hlog : (n - 1).log2 < k := (Nat.log2_lt (by omega)).mpr (by omega)
    rw [Nat.one_shiftLeft]
    exact Nat.pow_le_pow_right (by decide) hlog

/-- One slot of a delay line. -/
structure DelaySlot where
  /-- A response is in the slot and has not been given out. -/
  occupied : Bool
  /-- The words of the slot. -/
  words : List UInt32
  deriving DecidableEq, Repr

namespace DelaySlot

/-- The slot without its response. -/
def release (s : DelaySlot) : DelaySlot := { s with occupied := false }

/-- The slot with a response in it. Its words, if it has any, are laid over those of the
slot. -/
def occupy (words : Option (List UInt32)) (s : DelaySlot) : DelaySlot :=
  { occupied := true
    words := match words with
      | none => s.words
      | some words => overlay words s.words }

/-- How many responses are in the slot. -/
def count (s : DelaySlot) : Nat := if s.occupied then 1 else 0

end DelaySlot

/-- A ring of responses on their way. -/
structure DelayLine where
  /-- Steps from acceptance to response, at least one. -/
  delay : Nat
  /-- The slot of the present step. -/
  head : Nat
  /-- The ring. -/
  slots : Array DelaySlot
  /-- The number of responses on their way. -/
  inFlight : Nat
  /-- That many slots are occupied. -/
  inFlight_eq : inFlight = slots.countP DelaySlot.occupied
  deriving DecidableEq, Repr

namespace DelayLine

/-- A line without responses, for `width` words each. Neither delay nor width is bounded
here: a line longer than `maxBytes` would find no room. That of a bus memory, with a
delay of 32 bits and at most sixteen words, is far shorter. -/
def new (delay width : Nat) : DelayLine :=
  { delay := max delay 1
    head := 0
    slots := .replicate (ceilPowerOfTwo (max delay 1))
      { occupied := false, words := List.replicate width 0 }
    inFlight := 0
    inFlight_eq := by simp [Array.countP_replicate] }

/-- The number of slots. -/
def capacity (q : DelayLine) : Nat := q.slots.size

/-- The slot that lies the delay behind slot `head`. -/
def dueAt (q : DelayLine) (head : Nat) : Nat :=
  (head + q.capacity - q.delay) % q.capacity

/-- The line with one slot changed. -/
def modifySlot (q : DelayLine) (i : Nat) (f : DelaySlot → DelaySlot) : DelayLine :=
  match q with
  | { delay, head, slots, inFlight, inFlight_eq } =>
    if h : i < slots.size then
      let slot := slots[i]
      { delay, head
        slots := slots.set i (f slot)
        inFlight := inFlight - slot.count + (f slot).count
        inFlight_eq := by rw [Array.countP_set, inFlight_eq]; rfl }
    else { delay, head, slots, inFlight, inFlight_eq }

/-- The next step. The words of the due slot are laid over `out`; the result tells
whether they are a response. The due slot and the slot at the new head become free. -/
def tick (q : DelayLine) (out : List UInt32) : Bool × List UInt32 × DelayLine :=
  let head := (q.head + 1) % q.capacity
  let due := q.dueAt head
  let slot := q.slots.getD due { occupied := false, words := [] }
  let q := (q.modifySlot due DelaySlot.release).modifySlot head DelaySlot.release
  (slot.occupied, overlay slot.words out, { q with head })

/-- Accepts a request in the present step. -/
def put (q : DelayLine) (words : Option (List UInt32)) : DelayLine :=
  q.modifySlot q.head (DelaySlot.occupy words)

/-- Drops every response and puts the head back to the first slot. -/
def clear (q : DelayLine) : DelayLine :=
  if q.inFlight = 0 then { q with head := 0 }
  else
    { delay := q.delay
      head := 0
      slots := q.slots.map DelaySlot.release
      inFlight := 0
      inFlight_eq := by simp [Array.countP_map, Function.comp_def, DelaySlot.release] }

/-! ### What the operations do to the slots -/

@[simp] theorem slots_modifySlot (q : DelayLine) (i : Nat) (f : DelaySlot → DelaySlot) :
    (q.modifySlot i f).slots = q.slots.modify i f := by
  simp only [modifySlot]
  by_cases h : i < q.slots.size
  · simp only [dif_pos h]
    refine Array.ext (by simp) fun j hj _ => ?_
    simp only [Array.getElem_set, Array.getElem_modify]
    by_cases hij : i = j
    · subst hij
      simp
    · simp [hij]
  · simp only [dif_neg h]
    exact (Array.ext (by simp) fun j hj _ => by
      have : i ≠ j := by simp at hj; omega
      simp [Array.getElem_modify, this]).symm

@[simp] theorem delay_modifySlot (q : DelayLine) (i : Nat) (f : DelaySlot → DelaySlot) :
    (q.modifySlot i f).delay = q.delay := by
  simp only [modifySlot]
  split <;> rfl

@[simp] theorem head_modifySlot (q : DelayLine) (i : Nat) (f : DelaySlot → DelaySlot) :
    (q.modifySlot i f).head = q.head := by
  simp only [modifySlot]
  split <;> rfl

@[simp] theorem capacity_modifySlot (q : DelayLine) (i : Nat) (f : DelaySlot → DelaySlot) :
    (q.modifySlot i f).capacity = q.capacity := by
  simp [capacity]

end DelayLine

end SerialAta
