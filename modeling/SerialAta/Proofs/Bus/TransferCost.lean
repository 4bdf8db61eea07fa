import Mathlib.Data.Set.Card
import SerialAta.Proofs.Bus.Transfers
/-!
# SerialAta.Proofs.Bus.TransferCost

**What a transfer costs** (`BusMaster.transfer_cost`): a step for every beat, one for every stall
before the last beat is accepted, and the delay. With fewer steps than that it times out. A read
reserves room for its words before it makes a request, so one of too many words costs nothing and
gets nothing (`BusMaster.read_of_lt`).

The master makes a request in every step until its last beat is accepted, so the stalls of a
transfer are the first decisions of the source, and how many of `t` steps are not stalled is a
matter of the source alone (`StallPolicy.accepted`). The `n`th beat is accepted within `t` steps
exactly if there is room in them for `n` beats and the stalls before the last of these
(`StallPolicy.le_accepted_iff`).

Both loops are runs of the bus (`BusRun`) in which the master asks for its beats in this way
(`BusRun.Strobes`), and every acknowledgment comes the delay after its beat was accepted
(`BusRun.Strobes.acks_eq`). So after `t` rounds of a loop it is known which beats have been accepted
and how many acknowledgments are missing, and when the last one comes.
-/

namespace SerialAta

/-! ### Decisions of a source -/

namespace StallPolicy

variable {σ : Type} [StallPolicy σ]

/-- The source after so many decisions. -/
def after (source : σ) : (decisions : Nat) → σ
  | 0 => source
  | n + 1 => (next (after source n)).2

/-- Whether decision `i` is to stall. -/
def stalls (source : σ) (i : Nat) : Bool :=
  (next (after source i)).1

/-- How many of the first decisions are not to stall. -/
def accepted (source : σ) : (decisions : Nat) → Nat
  | 0 => 0
  | n + 1 => accepted source n + (!stalls source n).toNat

/-- The number of stalls before the last of `n` requests is accepted; infinite if it never is. -/
noncomputable def stallsBefore (source : σ) (n : Nat) : ℕ∞ :=
  {i | stalls source i = true ∧ accepted source i < n}.encard

variable {source : σ}

theorem accepted_le_succ (source : σ) (n : Nat) : accepted source n ≤ accepted source (n + 1) :=
  Nat.le_add_right ..

theorem accepted_mono {i j : Nat} (h : i ≤ j) : accepted source i ≤ accepted source j :=
  monotone_nat_of_le_succ (accepted_le_succ source) h

/-- A request that is not accepted is stalled. -/
theorem accepted_add_card (source : σ) (t : Nat) :
    accepted source t + ((Finset.range t).filter (stalls source ·)).card = t := by
  induction t with
  | zero => rfl
  | succ t ih =>
      rw [Finset.range_add_one, Finset.filter_insert, accepted]
      cases stalls source t with
      | false =>
          rw [if_neg Bool.false_ne_true, Bool.not_false, Bool.toNat_true]
          omega
      | true =>
          rw [if_pos rfl, Finset.card_insert_of_notMem (by simp), Bool.not_true, Bool.toNat_false]
          omega

/-- As long as fewer than `n` requests have been accepted, every stall counts. -/
theorem lt_add_stallsBefore {n t : Nat} (h : accepted source t < n) :
    (t : ℕ∞) < n + stallsBefore source n := by
  let stalled := (Finset.range t).filter (stalls source ·)
  have hsubset : (stalled : Set Nat) ⊆ {i | stalls source i = true ∧ accepted source i < n} := by
    intro i hi
    obtain ⟨hrange, hstall⟩ := Finset.mem_filter.mp hi
    exact ⟨hstall, Nat.lt_of_le_of_lt (accepted_mono (Finset.mem_range.mp hrange).le) h⟩
  have hcard : (stalled.card : ℕ∞) ≤ stallsBefore source n := by
    rw [← Set.encard_coe_eq_coe_finsetCard]
    exact Set.encard_le_encard hsubset
  have hcount : accepted source t + stalled.card = t := accepted_add_card source t
  calc (t : ℕ∞) < (n + stalled.card : Nat) := by
        rw [Nat.cast_lt]
        omega
    _ ≤ n + stallsBefore source n := by
        rw [Nat.cast_add]
        exact add_le_add_right hcard _

/-- With the step in which the `n`th request is accepted, `n` requests and the stalls before it have
had room. -/
theorem add_stallsBefore_le {n t : Nat} (hlast : accepted source t < n)
    (h : n ≤ accepted source (t + 1)) : (n : ℕ∞) + stallsBefore source n ≤ (t + 1 : Nat) := by
  let stalled := (Finset.range t).filter (stalls source ·)
  have haccepted : stalls source t = false := by
    cases hstall : stalls source t with
    | false => rfl
    | true =>
        rw [accepted, hstall] at h
        exact absurd h (Nat.not_le.mpr hlast)
  have hsubset : {i | stalls source i = true ∧ accepted source i < n} ⊆ (stalled : Set Nat) := by
    rintro i ⟨hstall, hi⟩
    refine Finset.mem_filter.mpr ⟨Finset.mem_range.mpr ?_, hstall⟩
    rcases Nat.lt_trichotomy i t with hlt | rfl | hgt
    · exact hlt
    · rw [haccepted] at hstall
      cases hstall
    · have hmono : accepted source (t + 1) ≤ accepted source i := accepted_mono hgt
      omega
  have hcard : stallsBefore source n ≤ stalled.card := by
    rw [← Set.encard_coe_eq_coe_finsetCard]
    exact Set.encard_le_encard hsubset
  have hcount : accepted source t + stalled.card = t := accepted_add_card source t
  calc (n : ℕ∞) + stallsBefore source n
      ≤ (n + stalled.card : Nat) := by
        rw [Nat.cast_add]
        exact add_le_add_right hcard _
    _ ≤ (t + 1 : Nat) := by
        rw [accepted, haccepted] at h
        rw [Nat.cast_le]
        have hone : (!false).toNat = 1 := rfl
        omega

/-- The `n`th request is accepted within `t` steps exactly if these have room for `n` requests and
the stalls before the last of them is accepted. -/
theorem le_accepted_iff {n t : Nat} :
    n ≤ accepted source t ↔ (n : ℕ∞) + stallsBefore source n ≤ t := by
  constructor
  · intro h
    induction t with
    | zero =>
        obtain rfl : n = 0 := Nat.le_zero.mp h
        have hnone : {i | stalls source i = true ∧ accepted source i < 0} = ∅ := by simp
        rw [stallsBefore, hnone, Set.encard_empty, add_zero]
    | succ t ih =>
        rcases Nat.lt_or_ge (accepted source t) n with hlast | hearlier
        · exact add_stallsBefore_le hlast h
        · exact (ih hearlier).trans (Nat.cast_le.mpr (Nat.le_succ t))
  · intro h
    refine Nat.le_of_not_lt fun hlt => ?_
    exact absurd h (not_le.mpr (lt_add_stallsBefore hlt))

/-- The stalls have no end only if the `n`th request is never accepted. -/
theorem stallsBefore_eq_top_iff {n : Nat} :
    stallsBefore source n = ⊤ ↔ ∀ t, accepted source t < n := by
  constructor
  · intro htop t
    refine Nat.lt_of_not_le fun hle => ?_
    rw [le_accepted_iff, htop, add_top, top_le_iff] at hle
    exact ENat.natCast_ne_top t hle
  · intro hnever
    by_contra hfinite
    obtain ⟨count, hcount⟩ := ENat.ne_top_iff_exists.mp hfinite
    have hlate : n ≤ accepted source (n + count) := by
      rw [le_accepted_iff, ← hcount, Nat.cast_add]
    exact absurd (hnever (n + count)) (Nat.not_lt.mpr hlate)

end StallPolicy

/-! ### A run that asks for beats -/

/-- With no response on its way, the ring is as good as empty. -/
theorem DelayLine.Holds.empty {q : DelayLine} {width : Nat} {r : Pipeline}
    (h : q.Holds width r) (hidle : q.inFlight = 0) : q.Holds width .empty := by
  have hnone : ∀ age < q.delay, (r age).isSome = false := by
    rw [h.inFlight_eq, List.countP_eq_zero] at hidle
    exact fun age hage => Bool.eq_false_iff.mpr (hidle age (List.mem_range.mpr hage))
  refine ⟨h.toSound, h.length, fun age hage => ?_, fun age _ words hr => by cases hr⟩
  rw [h.occupied age hage]
  by_cases hdue : age < q.delay
  · rw [hnone age hdue]
    rfl
  · rw [decide_eq_false hdue, Bool.false_and, Bool.false_and]

theorem BusMemory.Reached.models {σ : Type} [StallPolicy σ] {m : BusMemory σ} (hm : m.Reached)
    (hidle : m.inFlight = 0) : m.Models m.word .empty := by
  obtain ⟨-, words, due, r, hr, -⟩ := hm.owes
  exact ⟨hr.divided, rfl, hr.responses.empty hidle⟩

namespace BusRun

variable {σ : Type} [StallPolicy σ] {run : BusRun σ} {beats : Nat}

/-- How many of the beats have been accepted before step `t`, if a request is made as long as not
all of them have been. -/
def issued (run : BusRun σ) (beats t : Nat) : Nat :=
  min beats (StallPolicy.accepted run.start.stalls t)

/-- The number of acknowledgments before step `t`. -/
def acks (run : BusRun σ) : (t : Nat) → Nat
  | 0 => 0
  | t + 1 => run.acks t + (run.reply t).ack.toNat

/-- How the counters of a loop go on in a step. -/
theorem counters (run : BusRun σ) {beats limit t : Nat} (hmissing : run.acks t < beats)
    (ht : t < limit) :
    ∃ awaited left, beats - run.acks t = awaited + 1 ∧ limit - t = left + 1 ∧
      awaited + 1 - (run.reply t).ack.toNat = beats - run.acks (t + 1) ∧
      left = limit - (t + 1) := by
  refine ⟨beats - run.acks t - 1, limit - t - 1, by omega, by omega, ?_, by omega⟩
  rw [acks]
  omega

/-- In one bus cycle, the master makes a request as long as not all of its beats have been
accepted. -/
structure Strobes (run : BusRun σ) (beats : Nat) : Prop where
  idle : run.start.Models run.start.word .empty
  cyc : ∀ t, (run.request t).cyc = true
  stb : ∀ t, (run.request t).stb = decide (run.issued beats t < beats)

theorem issued_lt_iff {t : Nat} :
    run.issued beats t < beats ↔ StallPolicy.accepted run.start.stalls t < beats := by
  unfold issued
  omega

/-- Until the last beat is accepted, each step takes a decision of the source. -/
theorem Strobes.stalls_eq (h : run.Strobes beats) {t : Nat} (ht : run.issued beats t < beats) :
    (run.memory t).stalls = StallPolicy.after run.start.stalls t := by
  induction t with
  | zero => rfl
  | succ t ih =>
      have hlt : run.issued beats t < beats :=
        issued_lt_iff.mpr (Nat.lt_of_le_of_lt (StallPolicy.accepted_le_succ _ t)
          (issued_lt_iff.mp ht))
      have hstb : (run.request t).stb = true := by rw [h.stb, decide_eq_true hlt]
      have hstalls : (run.memory (t + 1)).stalls =
          ((run.memory t).decision (run.request t)).2 := by
        rw [memory, BusMemory.step_of_cyc (h.cyc t)]
        dsimp only
        split
        · exact BusMemory.stalls_accept ..
        · rfl
      rw [hstalls, BusMemory.decision, if_pos hstb, ih hlt]
      rfl

theorem Strobes.accepted_eq (h : run.Strobes beats) (t : Nat) :
    run.accepted t =
      (decide (run.issued beats t < beats) && !StallPolicy.stalls run.start.stalls t) := by
  rw [run.accepted_of_cyc (h.cyc t), h.stb]
  by_cases hlt : run.issued beats t < beats
  · have hstb : (run.request t).stb = true := by rw [h.stb, decide_eq_true hlt]
    rw [BusMemory.decision, if_pos hstb, h.stalls_eq hlt]
    rfl
  · rw [decide_eq_false hlt, Bool.false_and, Bool.false_and]

theorem Strobes.issued_succ (h : run.Strobes beats) (t : Nat) :
    run.issued beats (t + 1) = run.issued beats t + (run.accepted t).toNat := by
  rw [h.accepted_eq]
  by_cases hlt : run.issued beats t < beats
  · have hcount := issued_lt_iff.mp hlt
    have hone := (!StallPolicy.stalls run.start.stalls t).toNat_le
    rw [decide_eq_true hlt, Bool.true_and, issued, issued, StallPolicy.accepted]
    omega
  · have hcount : beats ≤ StallPolicy.accepted run.start.stalls t :=
      Nat.le_of_not_lt (mt issued_lt_iff.mpr hlt)
    have hmono := StallPolicy.accepted_le_succ run.start.stalls t
    rw [decide_eq_false hlt, Bool.false_and, Bool.toNat_false, issued, issued]
    omega

/-- Each acknowledgment comes the delay after its beat was accepted. -/
theorem Strobes.acks_eq (h : run.Strobes beats) (t : Nat) :
    run.acks t = run.issued beats (t - run.start.responses.delay) := by
  have hzero : run.issued beats 0 = 0 := Nat.min_zero _
  induction t with
  | zero => rw [Nat.zero_sub, hzero, acks]
  | succ t ih =>
      obtain ⟨hack, -⟩ := run.ack_iff h.idle t
      rw [acks, ih]
      by_cases hdue : run.start.responses.delay ≤ t
      · have hsame : (run.reply t).ack = run.accepted (t - run.start.responses.delay) := by
          rw [Bool.eq_iff_iff, hack]
          exact ⟨fun hall => hall.2.1, fun haccepted => ⟨hdue, haccepted, fun s _ _ => h.cyc s⟩⟩
        rw [hsame, Nat.succ_sub hdue, h.issued_succ]
      · have hnone : (run.reply t).ack = false :=
          Bool.eq_false_iff.mpr fun hsome => hdue (hack.mp hsome).1
        rw [hnone, Nat.sub_eq_zero_of_le (Nat.le_of_not_le hdue),
          Nat.sub_eq_zero_of_le (Nat.lt_of_not_le hdue), hzero]
        rfl

theorem le_sub_iff {n : ℕ∞} (hpos : 1 ≤ n) {t d : Nat} : n ≤ (t - d : Nat) ↔ n + d ≤ t := by
  cases n with
  | top => simp
  | coe n =>
      have hone : 1 ≤ n := Nat.one_le_cast.mp hpos
      rw [← Nat.cast_add, Nat.cast_le, Nat.cast_le]
      omega

/-- The steps for a number of beats: one for each of them, one for each stall before the last of
them is accepted, and the delay. -/
noncomputable def cost (run : BusRun σ) (beats : Nat) : ℕ∞ :=
  beats + StallPolicy.stallsBefore run.start.stalls beats + run.start.responses.delay

theorem Strobes.le_acks_iff (h : run.Strobes beats) (hpos : 0 < beats) {t : Nat} :
    beats ≤ run.acks t ↔ run.cost beats ≤ t := by
  have hone : 1 ≤ (beats : ℕ∞) + StallPolicy.stallsBefore run.start.stalls beats :=
    le_add_right (Nat.one_le_cast.mpr hpos)
  have hissued : beats ≤ run.acks t ↔
      beats ≤ StallPolicy.accepted run.start.stalls (t - run.start.responses.delay) := by
    rw [h.acks_eq, issued]
    omega
  rw [hissued, StallPolicy.le_accepted_iff, le_sub_iff hone, cost]

/-- If there is time, the last acknowledgment comes in the last step of the cost. -/
theorem Strobes.exists_steps (h : run.Strobes beats) (hpos : 0 < beats) {limit : Nat}
    (htime : run.cost beats ≤ limit) :
    ∃ steps ≤ limit, (steps : ℕ∞) = run.cost beats ∧ run.acks steps = beats ∧
      ∀ t < steps, run.acks t < beats := by
  have hfinite : run.cost beats ≠ ⊤ := ne_top_of_le_ne_top (ENat.natCast_ne_top _) htime
  obtain ⟨steps, hsteps⟩ := ENat.ne_top_iff_exists.mp hfinite
  refine ⟨steps, ?_, hsteps, ?_, fun t ht => ?_⟩
  · rwa [← hsteps, Nat.cast_le] at htime
  · refine Nat.le_antisymm ?_ ((h.le_acks_iff hpos).mpr hsteps.ge)
    rw [h.acks_eq]
    exact Nat.min_le_left ..
  · refine Nat.lt_of_not_le fun hle => ?_
    rw [h.le_acks_iff hpos, ← hsteps, Nat.cast_le] at hle
    omega

/-- If there is not, an acknowledgment is missing before every step. -/
theorem Strobes.acks_lt (h : run.Strobes beats) (hpos : 0 < beats) {limit t : Nat}
    (htime : limit < run.cost beats) (ht : t ≤ limit) : run.acks t < beats := by
  refine Nat.lt_of_not_le fun hle => ?_
  have hcost := ((h.le_acks_iff hpos).mp hle).trans (Nat.cast_le.mpr ht)
  exact absurd htime (not_lt.mpr hcost)

end BusRun

namespace BusMaster

variable {σ : Type} [StallPolicy σ] {m : BusMemory σ} {addr : UInt32} {limit : Nat}

/-! ### The loops as runs -/

theorem address_succ (addr : UInt32) (n : Nat) (accepted : Bool) :
    addr + (n + accepted.toNat).toUInt32 =
      if accepted then addr + n.toUInt32 + 1 else addr + n.toUInt32 := by
  cases accepted with
  | false => rfl
  | true =>
      have hsucc : (n + 1).toUInt32 = n.toUInt32 + 1 := UInt32.ofNat_add ..
      rw [if_pos rfl, Bool.toNat_true, hsucc, UInt32.add_assoc]

/-- The write loop as a run of the bus. -/
def writeRun (m : BusMemory σ) (addr : UInt32) (beats : List (List UInt32)) : BusRun σ :=
  let issued := fun t => min beats.length (StallPolicy.accepted m.stalls t)
  { start := m
    request := fun t => writeRequest (addr + (issued t).toUInt32) (beats.drop (issued t))
    buffer := fun _ => [] }

variable {beats : List (List UInt32)}

theorem strobes_writeRun (hm : m.Reached) (hidle : m.inFlight = 0) (addr : UInt32)
    (beats : List (List UInt32)) : (writeRun m addr beats).Strobes beats.length := by
  refine ⟨hm.models hidle, fun _ => rfl, fun t => ?_⟩
  rw [Bool.eq_iff_iff, decide_eq_true_iff]
  show (!(beats.drop ((writeRun m addr beats).issued beats.length t)).isEmpty) = true ↔ _
  simp

/-- The write loop after `n` rounds, if an acknowledgment is missing before each of them. -/
theorem writeBeats_rounds (h : (writeRun m addr beats).Strobes beats.length) {n : Nat}
    (hn : n ≤ limit) :
    let run := writeRun m addr beats
    (∀ t < n, run.acks t < beats.length) →
    writeBeats limit m addr beats beats.length limit =
      writeBeats limit (run.memory n) (addr + (run.issued beats.length n).toUInt32)
        (beats.drop (run.issued beats.length n)) (beats.length - run.acks n) (limit - n) := by
  intro run hmissing
  induction n with
  | zero =>
      have hzero : run.issued beats.length 0 = 0 := Nat.min_zero _
      have haddr : addr + (0 : Nat).toUInt32 = addr := UInt32.add_zero addr
      rw [hzero, haddr]
      rfl
  | succ n ih =>
      obtain ⟨awaited, left, hawaited, hleft, hacks, hrest⟩ :=
        run.counters (hmissing n (Nat.lt_succ_self n)) hn
      have hstep : (run.memory n).step
          (writeRequest (addr + (run.issued beats.length n).toUInt32)
            (beats.drop (run.issued beats.length n))) [] =
        (run.reply n, run.output n, run.memory (n + 1)) := rfl
      have haccepted : (!(beats.drop (run.issued beats.length n)).isEmpty && !(run.reply n).stall) =
        run.accepted n := rfl
      rw [ih (Nat.le_of_succ_le hn) fun t ht => hmissing t (Nat.lt_succ_of_lt ht), hawaited,
        hleft, writeBeats_succ hstep, haccepted, hacks, hrest, h.issued_succ, address_succ]
      cases run.accepted n with
      | false => rfl
      | true => exact congrArg (writeBeats limit _ _ · _ _) List.tail_drop

/-- The read loop as a run of the bus. -/
def readRun (m : BusMemory σ) (addr : UInt32) (beats : Nat) : BusRun σ :=
  let issued := fun t => min beats (StallPolicy.accepted m.stalls t)
  { start := m
    request := fun t => readRequest (addr + (issued t).toUInt32) (beats - issued t)
    buffer := fun _ => List.replicate m.width 0 }

theorem strobes_readRun (hm : m.Reached) (hidle : m.inFlight = 0) (addr : UInt32) (beats : Nat) :
    (readRun m addr beats).Strobes beats := by
  refine ⟨hm.models hidle, fun _ => rfl, fun t => ?_⟩
  rw [Bool.eq_iff_iff, decide_eq_true_iff]
  show (beats - (readRun m addr beats).issued beats t != 0) = true ↔ _
  rw [bne_iff_ne]
  omega

/-- The read loop after `n` rounds, if an acknowledgment is missing before each of them. -/
theorem readBeats_rounds {beats : Nat} (h : (readRun m addr beats).Strobes beats) {n : Nat}
    (hn : n ≤ limit) :
    let run := readRun m addr beats
    (∀ t < n, run.acks t < beats) →
    ∃ data, readBeats limit m addr #[] beats beats limit =
      readBeats limit (run.memory n) (addr + (run.issued beats n).toUInt32) data
        (beats - run.issued beats n) (beats - run.acks n) (limit - n) := by
  intro run hmissing
  induction n with
  | zero =>
      have hzero : run.issued beats 0 = 0 := Nat.min_zero _
      have haddr : addr + (0 : Nat).toUInt32 = addr := UInt32.add_zero addr
      rw [hzero, haddr]
      exact ⟨#[], rfl⟩
  | succ n ih =>
      obtain ⟨data, hdata⟩ := ih (Nat.le_of_succ_le hn) fun t ht =>
        hmissing t (Nat.lt_succ_of_lt ht)
      obtain ⟨awaited, left, hawaited, hleft, hacks, hrest⟩ :=
        run.counters (hmissing n (Nat.lt_succ_self n)) hn
      have hwidth : (run.memory n).width = m.width := (run.follows h.idle n).width
      have hstep : (run.memory n).step
          (readRequest (addr + (run.issued beats n).toUInt32) (beats - run.issued beats n))
          (List.replicate (run.memory n).width 0) =
        (run.reply n, run.output n, run.memory (n + 1)) := by
        rw [hwidth]
        rfl
      have haccepted : (beats - run.issued beats n != 0 && !(run.reply n).stall) =
        run.accepted n := rfl
      rw [hdata, hawaited, hleft, readBeats_succ hstep, haccepted, hacks, hrest, h.issued_succ,
        address_succ]
      refine ⟨if (run.reply n).ack then data ++ run.output n else data, ?_⟩
      cases run.accepted n <;> rfl

/-! ### What a write leaves -/

theorem beatsWritten_concat (width count : Nat) (addr : UInt32) (beats : List (List UInt32))
    (beat : List UInt32) (words : Nat → UInt32) :
    beatsWritten width count addr (beats ++ [beat]) words =
      beatWritten width count (addr + beats.length.toUInt32).toNat beat
        (beatsWritten width count addr beats words) := by
  induction beats generalizing addr words with
  | nil =>
      have haddr : addr + (0 : Nat).toUInt32 = addr := UInt32.add_zero addr
      rw [List.length_nil, haddr]
      rfl
  | cons first beats ih =>
      have hnext := address_succ addr beats.length true
      rw [if_pos rfl, UInt32.add_assoc, UInt32.add_comm _ 1, ← UInt32.add_assoc] at hnext
      rw [List.cons_append, beatsWritten, ih, ← hnext]
      rfl

/-- Before each step of a write, the memory holds the beats that have been accepted. -/
theorem contents_writeRun (h : (writeRun m addr beats).Strobes beats.length)
    (hwidth : m.width ≤ maxBeatWords) (t : Nat) :
    let run := writeRun m addr beats
    run.contents t = beatsWritten m.width (m.capacity / m.width) addr
      (beats.take (run.issued beats.length t)) m.word := by
  intro run
  induction t with
  | zero =>
      have hzero : run.issued beats.length 0 = 0 := Nat.min_zero _
      rw [hzero]
      rfl
  | succ t ih =>
      have hwe : (run.request t).we = true := rfl
      rw [BusRun.contents, hwe, Bool.and_true, h.issued_succ]
      cases haccepted : run.accepted t with
      | false => exact ih
      | true =>
          have hlt : run.issued beats.length t < beats.length := by
            rw [h.accepted_eq, Bool.and_eq_true, decide_eq_true_eq] at haccepted
            exact haccepted.1
          have hwritten := @written_allBytes (run.request t) rfl _ hwidth m.capacity
            (run.contents t)
          have hdata : (run.request t).data = beats[run.issued beats.length t] := by
            show (beats.drop (run.issued beats.length t)).headD [] = _
            rw [List.drop_eq_getElem_cons hlt]
            rfl
          have hlength : (beats.take (run.issued beats.length t)).length =
              run.issued beats.length t := List.length_take_of_le hlt.le
          have hconcat := beatsWritten_concat m.width (m.capacity / m.width) addr
            (beats.take (run.issued beats.length t)) beats[run.issued beats.length t] m.word
          rw [hlength, List.take_concat_get' _ _ hlt, ← ih, ← hdata] at hconcat
          exact hwritten.trans hconcat.symm

/-! ### Whole transfers -/

theorem write_cost (hm : m.Reached) (hidle : m.inFlight = 0) (addr : UInt32) {words : List UInt32}
    (hwords : words ≠ []) (limit : Nat) :
    let beats := chunks m.width words
    let cost := (writeRun m addr beats).cost beats.length
    let result := write m addr words limit
    (cost ≤ limit → ∃ steps : Nat, result.1 = .ok steps ∧ (steps : ℕ∞) = cost) ∧
    (limit < cost → result.1 = .error (.timeout .busWrite limit) ∧
      result.2.word = beatsWritten m.width (m.capacity / m.width) addr
        (beats.take (StallPolicy.accepted m.stalls limit)) m.word) := by
  intro beats cost result
  obtain ⟨hsized, stored, due, howes⟩ := hm.owes
  have h : (writeRun m addr beats).Strobes beats.length := strobes_writeRun hm hidle addr beats
  have hpos : 0 < beats.length := by
    have hfirst : beats = _ := chunks_of_ne_nil howes.divided.width_pos hwords
    rw [hfirst]
    exact Nat.succ_pos _
  refine ⟨fun htime => ?_, fun htime => ?_⟩
  · obtain ⟨steps, hle, hsteps, hdone, hmissing⟩ := h.exists_steps hpos htime
    have hrounds : result = _ := writeBeats_rounds h hle hmissing
    refine ⟨steps, ?_, hsteps⟩
    rw [hrounds, hdone, Nat.sub_self, writeBeats, Nat.sub_sub_self hle]
  · have hrounds : result = _ := writeBeats_rounds h le_rfl fun t ht =>
      h.acks_lt hpos htime (Nat.le_of_lt ht)
    have hlast := h.acks_lt hpos htime le_rfl
    obtain ⟨awaited, hawaited⟩ := Nat.exists_eq_succ_of_ne_zero (Nat.sub_ne_zero_of_lt hlast)
    rw [hrounds, hawaited, Nat.sub_self, writeBeats]
    refine ⟨rfl, ?_⟩
    rw [((writeRun m addr beats).follows h.idle limit).models.word,
      contents_writeRun h hsized.width_le, BusRun.issued, Nat.min_comm, ← List.take_eq_take_min]
    rfl

theorem read_cost (hm : m.Reached) (hidle : m.inFlight = 0) (addr : UInt32) {beats : Nat}
    (hpos : 0 < beats) (hroom : 4 * (beats * m.width) ≤ maxBytes) (limit : Nat) :
    let cost := (readRun m addr beats).cost beats
    let result := (read m addr beats limit).1
    (cost ≤ limit → ∃ words, result = .ok words) ∧
    (limit < cost → result = .error (.timeout .busRead limit)) := by
  intro cost result
  have hread : result = (readBeats limit m addr #[] beats beats limit).1 := by
    rw [← read_of_le hroom]
  have h : (readRun m addr beats).Strobes beats := strobes_readRun hm hidle addr beats
  refine ⟨fun htime => ?_, fun htime => ?_⟩
  · obtain ⟨steps, hle, -, hdone, hmissing⟩ := h.exists_steps hpos htime
    obtain ⟨data, hdata⟩ := readBeats_rounds h hle hmissing
    refine ⟨data.toList, ?_⟩
    rw [hread, hdata, hdone, Nat.sub_self, readBeats]
  · obtain ⟨data, hdata⟩ := readBeats_rounds h le_rfl fun t ht =>
      h.acks_lt hpos htime (Nat.le_of_lt ht)
    have hlast := h.acks_lt hpos htime le_rfl
    obtain ⟨awaited, hawaited⟩ := Nat.exists_eq_succ_of_ne_zero (Nat.sub_ne_zero_of_lt hlast)
    rw [hread, hdata, hawaited, Nat.sub_self, readBeats]

/-- **What a transfer costs.** To or from a memory that owes nothing, whatever has been done to it,
a transfer of some beats needs a step for each of them, one for each stall before the last of them
is accepted, and the delay. With no fewer steps than that it comes to its end, a write after exactly
so many. With fewer it times out; then a write has written the beats that were accepted within the
limit, from the first one on, and changed nothing else. A read of more words than there is room for
stops before its first step, and the memory is as it was; nothing is said of so many words that 64
bits cannot count them. A transfer of nothing takes no step. -/
theorem transfer_cost (hm : m.Reached) (hidle : m.inFlight = 0) (addr : UInt32) (limit : Nat) :
    let cost := fun beats : Nat =>
      (beats : ℕ∞) + StallPolicy.stallsBefore m.stalls beats + m.responses.delay
    (∀ words : List UInt32, words ≠ [] →
      let beats := chunks m.width words
      let result := write m addr words limit
      (cost beats.length ≤ limit →
        ∃ steps : Nat, result.1 = .ok steps ∧ (steps : ℕ∞) = cost beats.length) ∧
      (limit < cost beats.length → result.1 = .error (.timeout .busWrite limit) ∧
        result.2.word = beatsWritten m.width (m.capacity / m.width) addr
          (beats.take (StallPolicy.accepted m.stalls limit)) m.word)) ∧
    (∀ beats : Nat, 0 < beats → 4 * (beats * m.width) ≤ maxBytes →
      let result := (read m addr beats limit).1
      (cost beats ≤ limit → ∃ words, result = .ok words) ∧
      (limit < cost beats → result = .error (.timeout .busRead limit))) ∧
    (∀ beats : Nat, beats * m.width < UInt64.size → maxBytes < 4 * (beats * m.width) →
      read m addr beats limit = (.error .capacityOverflow, m)) ∧
    write m addr [] limit = (.ok 0, m) ∧ read m addr 0 limit = (.ok [], m) := by
  intro cost
  refine ⟨fun words hwords => write_cost hm hidle addr hwords limit,
    fun beats hpos hroom => read_cost hm hidle addr hpos hroom limit,
    fun beats _ hlong => read_of_lt hlong addr limit, ?_, ?_⟩
  · rw [write, chunks_nil, List.length_nil, writeBeats.eq_1, Nat.sub_self]
  · rw [read_of_le (by rw [Nat.zero_mul]; exact Nat.zero_le _), readBeats.eq_1]

/-- Two beats behind a delay of three steps, of which the second one is stalled three times: they
need eight steps. Within four steps only the first one has been accepted. -/
theorem transfer_cost_stalled :
    let m : BusMemory RandomStalls := .zeroed 16 3 2 (.ofSeed 2 1)
    m.Reached ∧ m.inFlight = 0 ∧ StallPolicy.stallsBefore m.stalls 2 = 3 ∧
      (write m 7 [1, 2, 3] 8).1 = .ok 8 ∧
      (write m 7 [1, 2, 3] 7).1 = .error (.timeout .busWrite 7) ∧
      (write m 7 [1, 2, 3] 4).2.word 14 = 1 ∧ (write m 7 [1, 2, 3] 4).2.word 0 = 0 ∧
      (read m 7 2 7).1 = .error (.timeout .busRead 7) := by
  intro m
  have hnew : BusMemory.new { BusParameters.standard with
      words := 16, delay := 3, wordsPerBeat := 2 } (RandomStalls.ofSeed 2 1) = .ok m :=
    BusMemory.new_of_valid (by decide) (by decide) _
  have hreached : m.Reached := .new hnew
  have hbeats : chunks m.width ([1, 2, 3] : List UInt32) = [[1, 2], [3]] := by decide +kernel
  have hwrite := fun limit =>
    (transfer_cost hreached rfl 7 limit).1 [1, 2, 3] (List.cons_ne_nil _ _)
  have hread := fun limit => (transfer_cost hreached rfl 7 limit).2.1 2 Nat.two_pos (by decide)
  dsimp only at hwrite hread
  rw [hbeats] at hwrite
  have hok : (write m 7 [1, 2, 3] 8).1 = .ok 8 := by decide +kernel
  have height : (2 : Nat) + StallPolicy.stallsBefore m.stalls 2 + (3 : Nat) = (8 : Nat) := by
    rcases le_or_gt _ ((8 : Nat) : ℕ∞) with htime | htime
    · obtain ⟨steps, hsteps, hexact⟩ := (hwrite 8).1 htime
      rw [hok] at hsteps
      obtain rfl := Except.ok.inj hsteps
      exact hexact.symm
    · have herror := ((hwrite 8).2 htime).1
      rw [hok] at herror
      cases herror
  have hlate : ∀ limit : Nat, limit < 8 → (limit : ℕ∞) <
      (2 : Nat) + StallPolicy.stallsBefore m.stalls 2 + (3 : Nat) := by
    intro limit hlimit
    rw [height]
    exact Nat.cast_lt.mpr hlimit
  have hthree : StallPolicy.stallsBefore m.stalls 2 = 3 := by
    cases hstalls : StallPolicy.stallsBefore m.stalls 2 with
    | top =>
        rw [hstalls] at height
        cases height
    | coe stalls =>
        rw [hstalls, ← Nat.cast_add, ← Nat.cast_add, Nat.cast_inj] at height
        obtain rfl : stalls = 3 := by omega
        rfl
  have hword := ((hwrite 4).2 (hlate 4 (by decide))).2
  refine ⟨hreached, rfl, hthree, hok, ((hwrite 7).2 (hlate 7 (by decide))).1, ?_, ?_,
    (hread 7).2 (hlate 7 (by decide))⟩
  · rw [hword]
    decide +kernel
  · rw [hword]
    decide +kernel

/-- Of 2⁶¹ words, which take 2⁶³ bytes, none is asked for: the read does not time out, although it
has fewer steps than it has beats. -/
theorem read_without_room :
    let m : BusMemory RandomStalls := .zeroed 16 1 1 (.ofSeed 0 0)
    let beats : Nat := 0x2000000000000000
    m.Reached ∧ m.inFlight = 0 ∧ 0 < beats ∧
      (5 : Nat) < (beats : ℕ∞) + StallPolicy.stallsBefore m.stalls beats + m.responses.delay ∧
      (read m 0 beats 5).1 ≠ .error (.timeout .busRead 5) ∧
      read m 0 beats 5 = (.error .capacityOverflow, m) := by
  intro m beats
  have hnew : BusMemory.new { BusParameters.standard with words := 16, delay := 1 }
      (RandomStalls.ofSeed 0 0) = .ok m :=
    BusMemory.new_of_valid (by decide) (by decide) _
  have hcost : ((5 : Nat) : ℕ∞) < beats := Nat.cast_lt.mpr (by decide)
  have hread : read m 0 beats 5 = (.error .capacityOverflow, m) := read_of_lt (by decide) 0 5
  refine ⟨.new hnew, rfl, by decide, ?_, ?_, hread⟩
  · exact hcost.trans_le (le_add_right le_self_add)
  · rw [hread]
    intro h
    cases h

end BusMaster

end SerialAta
