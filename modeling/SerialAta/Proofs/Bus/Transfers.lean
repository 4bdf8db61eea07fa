import Mathlib.Data.List.Forall2
import SerialAta.Host.BusMaster
import SerialAta.Proofs.Bus.Queue
/-!
# SerialAta.Proofs.Bus.Transfers

**What the bus master writes, it reads back** (`BusMaster.read_write`), whatever the stalls and
the delay.

Issue and acknowledgment overlap in both loops: a beat may be turned down again and again while
acknowledgments of earlier ones come in. For the loops the memory is a queue
(`BusMemory.Owes`), and acknowledgments come in the order of the queue, whoever made the requests:
those that are on their way when a loop begins are the first that it counts (`writeBeats_ok`,
`readBeats_ok`). With none of them there, a loop counts its own, and with the last of these nothing
is left over.

What remains is where the beats go. Addresses wrap around at 2³² and again at the end of the
memory, but a run of no more beats than there are in the memory, and addresses, meets no beat twice
(`beatsWritten_wordIndex`).
-/

namespace SerialAta

namespace BusMaster

/-! ### Beats -/

/-- The words of a memory of `count` beats after a beat is written, of which the last words may be
missing. -/
def beatWritten (width count addr : Nat) (beat : List UInt32) (words : Nat → UInt32) (i : Nat) :
    UInt32 :=
  if addr % count = i / width % count then beat[i % width]?.getD (words i) else words i

/-- The words of a memory of `count` beats after beats are written from address `addr` on. -/
def beatsWritten (width count : Nat) :
    (addr : UInt32) → (beats : List (List UInt32)) → (words : Nat → UInt32) → Nat → UInt32
  | _, [], words => words
  | addr, beat :: beats, words =>
    beatsWritten width count (addr + 1) beats (beatWritten width count addr.toNat beat words)

/-- Word `j` of the `i`th beat from address `addr` on. -/
def wordIndex (width : Nat) (addr : UInt32) (i j : Nat) : Nat :=
  (addr.toNat + i) % UInt32.size * width + j

/-- The words of the `n` beats from address `addr` on. -/
def beatsRead (width capacity : Nat) (words : Nat → UInt32) (addr : UInt32) (n : Nat) :
    List (List UInt32) :=
  (List.range n).map fun i =>
    (List.range width).map fun j => words (wordIndex width addr i j % capacity)

theorem merge_allBytes {width k : Nat} (hwidth : width ≤ maxBeatWords) (value old : UInt32) :
    BusMemory.merge (BusMemory.byteMask (BusMemory.selectOf allBytes width k)) value old =
      value := by
  have hselect : ∀ n < maxBeatWords, (allBytes >>> (4 * n).toUInt64) &&& 0x0F = 0x0F := by decide
  have hmask : BusMemory.byteMask 0x0F = 0xFFFFFFFF := by decide
  have hnone : ~~~(0xFFFFFFFF : UInt32) = 0 := by decide
  have hall : (0xFFFFFFFF : UInt32) = -1 := by decide
  rw [BusMemory.selectOf, hselect _ (by unfold maxBeatWords at *; omega), hmask, BusMemory.merge,
    hnone, UInt32.and_zero, UInt32.zero_or, hall, UInt32.and_neg_one]

/-- A request that selects all bytes writes the words that it has. -/
theorem written_allBytes {req : BusRequest} (hsel : req.sel = allBytes) {width : Nat}
    (hwidth : width ≤ maxBeatWords) (capacity : Nat) (words : Nat → UInt32) :
    req.written width capacity words =
      beatWritten width (capacity / width) req.addr.toNat req.data words := by
  funext i
  rw [BusRequest.written, beatWritten, hsel]
  split
  · cases req.data[i % width]? with
    | none => rfl
    | some value => exact merge_allBytes hwidth value _
  · rfl

/-! ### Where the beats go -/

theorem beatWritten_of_other {width count addr k : Nat} (hwidth : 0 < width) {beat : List UInt32}
    {words : Nat → UInt32}
    (hother : ∀ j v, j < width → beat[j]? = some v →
      (addr * width + j) % (width * count) ≠ k % (width * count)) :
    beatWritten width count addr beat words k = words k := by
  have hplace : k % width < width := Nat.mod_lt _ hwidth
  rw [beatWritten]
  split
  · next hbeat =>
    cases hv : beat[k % width]? with
    | none => rfl
    | some v => exact absurd ((beat_index_eq_iff hplace).mpr ⟨hbeat, rfl⟩) (hother _ v hplace hv)
  · rfl

theorem eq_of_add_mod_eq {a i i' n : Nat} (hi : i < n) (hi' : i' < n)
    (h : (a + i) % n = (a + i') % n) : i = i' := by
  have hle : i - i' = 0 := by
    have hzero := Nat.sub_mod_eq_zero_of_mod_eq h
    rwa [Nat.add_sub_add_left, Nat.mod_eq_of_lt (by omega)] at hzero
  have hge : i' - i = 0 := by
    have hzero := Nat.sub_mod_eq_zero_of_mod_eq h.symm
    rwa [Nat.add_sub_add_left, Nat.mod_eq_of_lt (by omega)] at hzero
  omega

/-- Beats that are nearer to one another than the memory has beats, and there are addresses, are
different ones, also where the addresses wrap around. -/
theorem wordIndex_ne {width count i i' j j' : Nat}
    (hcount : count ∣ UInt32.size ∨ UInt32.size ∣ count) (hi : i < min count UInt32.size)
    (hi' : i' < min count UInt32.size) (hne : i ≠ i') (hj : j < width) (hj' : j' < width)
    (addr : UInt32) :
    wordIndex width addr i j % (width * count) ≠ wordIndex width addr i' j' % (width * count) := by
  intro hsame
  obtain ⟨hbeat, -⟩ := (beat_index_eq_iff hj).mp hsame
  rw [wordIndex, beat_index_div hj'] at hbeat
  rcases hcount with hcount | hcount
  · rw [Nat.mod_mod_of_dvd _ hcount, Nat.mod_mod_of_dvd _ hcount] at hbeat
    exact hne (eq_of_add_mod_eq (by omega) (by omega) hbeat)
  · have hsize : UInt32.size ≤ count := Nat.le_of_dvd (by omega) hcount
    have hlt : ∀ k, k % UInt32.size < count := fun k =>
      Nat.lt_of_lt_of_le (Nat.mod_lt _ (by decide)) hsize
    rw [Nat.mod_eq_of_lt (hlt _), Nat.mod_eq_of_lt (hlt _)] at hbeat
    exact hne (eq_of_add_mod_eq (by omega) (by omega) hbeat)

theorem wordIndex_zero (width : Nat) (addr : UInt32) (j : Nat) :
    wordIndex width addr 0 j = addr.toNat * width + j := by
  rw [wordIndex, Nat.add_zero, Nat.mod_eq_of_lt addr.toNat_lt]

theorem wordIndex_succ (width : Nat) (addr : UInt32) (i j : Nat) :
    wordIndex width (addr + 1) i j = wordIndex width addr (i + 1) j := by
  have hnext : (addr + 1).toNat = (addr.toNat + 1) % UInt32.size := rfl
  rw [wordIndex, wordIndex, hnext, Nat.mod_add_mod, Nat.add_assoc, Nat.add_comm 1]

/-- A word that is in none of the beats is left as it is. -/
theorem beatsWritten_of_other {width count k : Nat} (hwidth : 0 < width) {addr : UInt32}
    {beats : List (List UInt32)} {words : Nat → UInt32}
    (hother : ∀ i j v, j < width → (beats[i]?.bind fun beat => beat[j]?) = some v →
      wordIndex width addr i j % (width * count) ≠ k % (width * count)) :
    beatsWritten width count addr beats words k = words k := by
  induction beats generalizing addr words with
  | nil => rfl
  | cons beat beats ih =>
      rw [beatsWritten, ih, beatWritten_of_other hwidth]
      · intro j v hj hv
        rw [← wordIndex_zero]
        exact hother 0 j v hj hv
      · intro i j v hj hv
        rw [wordIndex_succ]
        exact hother (i + 1) j v hj hv

/-- A word that is in one of the beats is that of the beat. -/
theorem beatsWritten_wordIndex {width count : Nat}
    (hcount : count ∣ UInt32.size ∨ UInt32.size ∣ count) {addr : UInt32}
    {beats : List (List UInt32)} (hfit : beats.length ≤ min count UInt32.size)
    {words : Nat → UInt32} {i j : Nat} {v : UInt32} (hj : j < width)
    (hv : (beats[i]?.bind fun beat => beat[j]?) = some v) :
    beatsWritten width count addr beats words (wordIndex width addr i j) = v := by
  induction beats generalizing addr words i with
  | nil => simp at hv
  | cons beat beats ih =>
      rw [List.length_cons] at hfit
      rw [beatsWritten]
      cases i with
      | succ i =>
          rw [← wordIndex_succ]
          exact ih (by omega) hv
      | zero =>
          rw [beatsWritten_of_other (by omega)]
          · have hplace : beat[j]? = some v := hv
            rw [wordIndex_zero, beatWritten, beat_index_div hj, beat_index_mod hj, if_pos rfl,
              hplace, Option.getD_some]
          · -- The beats after it are other ones.
            intro i' j' v' hj' hv'
            obtain ⟨beat', hbeat', -⟩ := Option.bind_eq_some_iff.mp hv'
            have hi' := (List.getElem?_eq_some_iff.mp hbeat').1
            rw [wordIndex_succ]
            exact wordIndex_ne hcount (by omega) (by omega) (by omega) hj' hj addr

theorem beatsRead_succ (width capacity : Nat) (words : Nat → UInt32) (addr : UInt32) (n : Nat) :
    beatsRead width capacity words addr (n + 1) =
      ((List.range width).map fun j => words ((addr.toNat * width + j) % capacity)) ::
        beatsRead width capacity words (addr + 1) n := by
  simp only [beatsRead, List.range_succ_eq_map, List.map_cons, List.map_map, wordIndex_zero]
  simp only [Function.comp_def, wordIndex_succ]

/-- The beats of a memory one after another. -/
theorem flatten_beatsRead {σ : Type} (m : BusMemory σ) (addr : UInt32) (n : Nat) :
    (beatsRead m.width m.capacity m.word addr n).flatten =
      (List.range n).flatMap fun i => (List.range m.width).map fun j =>
        m.word (wordIndex m.width addr i j) := by
  simp only [beatsRead, BusMemory.word_mod, List.flatMap_def]

/-! ### The write loop -/

variable {σ : Type} [StallPolicy σ] {m m₁ : BusMemory σ} {words : Nat → UInt32}
variable {due : List (Option (List UInt32))} {addr : UInt32} {limit awaited left : Nat}
variable {reply : BusReply} {out : List UInt32}

/-- The request of the write loop. -/
def writeRequest (addr : UInt32) (beats : List (List UInt32)) : BusRequest :=
  { cyc := true, stb := !beats.isEmpty, we := true, addr, data := beats.headD [], sel := allBytes }

theorem writeBeats_succ {beats : List (List UInt32)}
    (hstep : m.step (writeRequest addr beats) [] = (reply, out, m₁)) :
    writeBeats limit m addr beats (awaited + 1) (left + 1) =
      let accepted := !beats.isEmpty && !reply.stall
      writeBeats limit m₁ (if accepted then addr + 1 else addr)
        (if accepted then beats.tail else beats) (awaited + 1 - reply.ack.toNat) left := by
  rw [writeBeats, ← writeRequest, hstep]
  cases hack : reply.ack <;> simp [hack]

/-- One round of the write loop. If its beat is accepted, that is the first of those that are still
to be written. -/
theorem write_step (h : m.Owes words due) (hwidth : m.width ≤ maxBeatWords)
    {beats : List (List UInt32)}
    (hstep : m.step (writeRequest addr beats) [] = (reply, out, m₁)) :
    let accepted := !beats.isEmpty && !reply.stall
    let beats₁ := if accepted then beats.tail else beats
    let addr₁ := if accepted then addr + 1 else addr
    let count := m.capacity / m.width
    m₁.width = m.width ∧ m₁.capacity = m.capacity ∧ ∃ words₁ due₁, m₁.Owes words₁ due₁ ∧
      beats₁.length + accepted.toNat = beats.length ∧
      due₁.length + reply.ack.toNat = due.length + accepted.toNat ∧
      ∀ n, beatsWritten m.width count addr₁ (beats₁.take n) words₁ =
        beatsWritten m.width count addr (beats.take (n + accepted.toNat)) words := by
  obtain ⟨hw, hc, given, rest, rfl, hack, -, hnext⟩ := h.step rfl hstep
  have hgiven : given.toList.length = reply.ack.toNat := by
    rw [hack]
    cases given <;> rfl
  have hstb : (writeRequest addr beats).stb = !beats.isEmpty := rfl
  rw [hstb] at hnext
  rw [List.length_append, hgiven]
  cases haccepted : !beats.isEmpty && !reply.stall with
  | false =>
      rw [haccepted, if_neg Bool.false_ne_true] at hnext
      exact ⟨hw, hc, _, _, hnext, rfl, Nat.add_comm .., fun n => rfl⟩
  | true =>
      cases beats with
      | nil => cases haccepted
      | cons beat beats =>
          have hwritten := @written_allBytes (writeRequest addr (beat :: beats)) rfl _ hwidth
            m.capacity words
          have hwe : (writeRequest addr (beat :: beats)).we = true := rfl
          rw [haccepted, if_pos rfl, if_pos hwe, hwritten] at hnext
          refine ⟨hw, hc, _, _, hnext, rfl, ?_, fun n => rfl⟩
          simp only [List.length_append, List.length_cons, List.length_nil, Bool.toNat_true]
          omega

/-- A write that comes to its end has written some of its beats, from the first one on. Of the
responses that were on their way before and those to its beats it has seen as many as it awaited. -/
theorem writeBeats_ok (h : m.Owes words due) (hwidth : m.width ≤ maxBeatWords)
    {beats : List (List UInt32)} {steps : Nat}
    (hok : (writeBeats limit m addr beats awaited left).1 = .ok steps) :
    let m' := (writeBeats limit m addr beats awaited left).2
    m'.width = m.width ∧ m'.capacity = m.capacity ∧ ∃ n due', n ≤ beats.length ∧
      due'.length + awaited = due.length + n ∧
      m'.Owes (beatsWritten m.width (m.capacity / m.width) addr (beats.take n) words) due' := by
  induction left generalizing m words due addr beats awaited with
  | zero =>
      cases awaited with
      | succ awaited => cases hok
      | zero => exact ⟨rfl, rfl, 0, due, Nat.zero_le _, rfl, h⟩
  | succ left ih =>
      cases awaited with
      | zero => exact ⟨rfl, rfl, 0, due, Nat.zero_le _, rfl, h⟩
      | succ awaited =>
          rcases hstep : m.step (writeRequest addr beats) [] with ⟨reply, out, m₁⟩
          obtain ⟨hw, hc, words₁, due₁, h₁, hbeats, hdue, hwritten⟩ := write_step h hwidth hstep
          rw [writeBeats_succ hstep] at hok ⊢
          rw [← hw] at hwidth
          obtain ⟨hw', hc', n, due', hn, hcount, h'⟩ := ih h₁ hwidth hok
          rw [hw, hc, hwritten] at h'
          have hack := reply.ack.toNat_le
          exact ⟨hw'.trans hw, hc'.trans hc, _, due', by omega, by omega, h'⟩

/-! ### The read loop -/

/-- The request of the read loop. -/
def readRequest (addr : UInt32) (toIssue : Nat) : BusRequest :=
  { cyc := true, stb := toIssue != 0, we := false, addr, data := [], sel := 0 }

theorem readBeats_succ {data : Array UInt32} {toIssue : Nat}
    (hstep : m.step (readRequest addr toIssue) (List.replicate m.width 0) = (reply, out, m₁)) :
    readBeats limit m addr data toIssue (awaited + 1) (left + 1) =
      let accepted := toIssue != 0 && !reply.stall
      readBeats limit m₁ (if accepted then addr + 1 else addr)
        (if reply.ack then data ++ out else data) (if accepted then toIssue - 1 else toIssue)
        (awaited + 1 - reply.ack.toNat) left := by
  rw [readBeats, ← readRequest, hstep]
  cases hack : reply.ack <;> simp [hack]

/-- What a master sees of a response: a beat of words, which are those of the response if it is
one to a read. -/
structure Answers (width : Nat) (response : Option (List UInt32)) (answer : List UInt32) :
    Prop where
  length : answer.length = width
  words : ∀ ws, response = some ws → ws.length = width → answer = ws

/-- One round of the read loop. The responses on their way and those to the beats that are still to
be asked for are the same as before, but for one that comes in. -/
theorem read_step (h : m.Owes words due) {toIssue : Nat}
    (hstep : m.step (readRequest addr toIssue) (List.replicate m.width 0) = (reply, out, m₁)) :
    let accepted := toIssue != 0 && !reply.stall
    let addr₁ := if accepted then addr + 1 else addr
    let toIssue₁ := if accepted then toIssue - 1 else toIssue
    let asked := fun addr n => (beatsRead m.width m.capacity words addr n).map some
    m₁.width = m.width ∧ m₁.capacity = m.capacity ∧ ∃ given due₁, m₁.Owes words due₁ ∧
      reply.ack = Option.isSome given ∧ (∀ g, given = some g → Answers m.width g out) ∧
      due ++ asked addr toIssue = given.toList ++ (due₁ ++ asked addr₁ toIssue₁) := by
  obtain ⟨hw, hc, given, rest, rfl, hack, hout, hnext⟩ := h.step rfl hstep
  have hanswers : ∀ g, given = some g → Answers m.width g out := by
    rintro g rfl
    refine ⟨by rw [BusMemory.length_step hstep, List.length_replicate], ?_⟩
    rintro ws rfl hlength
    rw [hout ws rfl, List.take_of_length_le (Nat.le_of_eq hlength), overlay,
      List.length_replicate, List.take_of_length_le (Nat.le_of_eq hlength),
      List.drop_of_length_le (by simp [hlength]), List.append_nil]
  have hstb : (readRequest addr toIssue).stb = (toIssue != 0) := rfl
  rw [hstb] at hnext
  cases haccepted : toIssue != 0 && !reply.stall with
  | false =>
      rw [haccepted, if_neg Bool.false_ne_true] at hnext
      exact ⟨hw, hc, given, rest, hnext, hack, hanswers, List.append_assoc ..⟩
  | true =>
      cases toIssue with
      | zero => cases haccepted
      | succ toIssue =>
          rw [haccepted, if_pos rfl] at hnext
          refine ⟨hw, hc, given, _, hnext, hack, hanswers, ?_⟩
          simp only [beatsRead_succ, List.map_cons, List.append_assoc, List.singleton_append]
          rfl

/-- A read that comes to its end has taken as many responses as it awaited for the words of its
beats: first those that were on their way before, then those to its own requests. -/
theorem readBeats_ok (h : m.Owes words due) {data : Array UInt32} {toIssue : Nat}
    {result : List UInt32}
    (hok : (readBeats limit m addr data toIssue awaited left).1 = .ok result) :
    let m' := (readBeats limit m addr data toIssue awaited left).2
    let queue := due ++ (beatsRead m.width m.capacity words addr toIssue).map some
    m'.width = m.width ∧ m'.capacity = m.capacity ∧ ∃ answers due',
      result = data.toList ++ answers.flatten ∧
      List.Forall₂ (Answers m.width) (queue.take awaited) answers ∧ answers.length = awaited ∧
      m'.Owes words due' ∧ due' <+: queue.drop awaited := by
  induction left generalizing m addr data toIssue awaited due with
  | zero =>
      cases awaited with
      | succ awaited => cases hok
      | zero =>
          refine ⟨rfl, rfl, [], due, ?_, .nil, rfl, h, List.prefix_append ..⟩
          rw [List.flatten_nil, List.append_nil]
          exact (Except.ok.inj hok).symm
  | succ left ih =>
      cases awaited with
      | zero =>
          refine ⟨rfl, rfl, [], due, ?_, .nil, rfl, h, List.prefix_append ..⟩
          rw [List.flatten_nil, List.append_nil]
          exact (Except.ok.inj hok).symm
      | succ awaited =>
          rcases hstep : m.step (readRequest addr toIssue) (List.replicate m.width 0) with
            ⟨reply, out, m₁⟩
          obtain ⟨hw, hc, given, due₁, h₁, hack, hanswers, hqueue⟩ := read_step h hstep
          rw [readBeats_succ hstep] at hok ⊢
          rw [hqueue, ← hw, ← hc]
          cases given with
          | none =>
              rw [hack] at hok ⊢
              exact ih h₁ hok
          | some g =>
              rw [hack] at hok ⊢
              obtain ⟨hw', hc', answers, due', hresult, hall, hlength, h', hprefix⟩ := ih h₁ hok
              refine ⟨hw', hc', out :: answers, due', ?_, .cons ?_ hall, ?_, h', hprefix⟩
              · rw [hresult]
                simp
              · rw [hw]
                exact hanswers g rfl
              · rw [List.length_cons, hlength]
                rfl

/-- Responses to reads are seen as they are. -/
theorem eq_of_answers {width : Nat} {beats answers : List (List UInt32)}
    (hbeats : ∀ ws ∈ beats, ws.length = width)
    (hall : List.Forall₂ (Answers width) (beats.map some) answers) : answers = beats := by
  induction beats generalizing answers with
  | nil =>
      cases hall
      rfl
  | cons ws beats ih =>
      cases hall with
      | cons hanswer hall =>
          have hrest := ih (fun ws hws => hbeats ws (List.mem_cons_of_mem _ hws)) hall
          rw [hrest, hanswer.words ws rfl (hbeats ws (List.mem_cons_self ..))]

/-! ### Whole transfers -/

theorem take_beatsRead (width capacity : Nat) (words : Nat → UInt32) (addr : UInt32) {k n : Nat}
    (hk : k ≤ n) : (beatsRead width capacity words addr n).take k =
      beatsRead width capacity words addr k := by
  rw [beatsRead, ← List.map_take, List.take_range, Nat.min_eq_left hk]
  rfl

theorem length_of_mem_beatsRead {width capacity : Nat} {words : Nat → UInt32} {n : Nat}
    {ws : List UInt32} (hws : ws ∈ beatsRead width capacity words addr n) : ws.length = width := by
  obtain ⟨i, -, rfl⟩ := List.mem_map.mp hws
  rw [List.length_map, List.length_range]

/-- A read among responses that are on their way. It takes these for its first beats; from there on
its words are those of the beats that it has asked for, from the first one on. -/
theorem read_behind (h : m.Owes words due) {beats : Nat} {result : List UInt32}
    (hok : (read m addr beats limit).1 = .ok result) :
    let m₁ := (read m addr beats limit).2
    m₁.capacity = m.capacity ∧ (∃ due₁, m₁.Owes words due₁ ∧ due₁.length ≤ due.length) ∧
      ∃ answers : List (List UInt32), result = answers.flatten ∧ answers.length = beats ∧
        (∀ ws ∈ answers, ws.length = m.width) ∧
        answers.drop due.length =
          beatsRead m.width m.capacity words addr (beats - due.length) := by
  have hread := read_of_ok hok
  rw [hread] at hok ⊢
  obtain ⟨-, hc, answers, due₁, hresult, hall, hlength, h₁, hprefix⟩ := readBeats_ok h hok
  refine ⟨hc, ⟨due₁, h₁, ?_⟩, answers, hresult, hlength, fun ws hws => ?_, ?_⟩
  · have hle := hprefix.length_le
    rw [List.length_drop, List.length_append, List.length_map, beatsRead, List.length_map,
      List.length_range] at hle
    omega
  · obtain ⟨i, hi, rfl⟩ := List.getElem_of_mem hws
    exact (hall.get (hall.length_eq ▸ hi) hi).length
  · have hfresh := List.forall₂_drop due.length hall
    rw [List.drop_take, List.drop_left, ← List.map_take, take_beatsRead _ _ _ _ (Nat.sub_le ..)]
      at hfresh
    exact eq_of_answers (fun ws hws => length_of_mem_beatsRead hws) hfresh

/-- A read of a memory that owes nothing. -/
theorem read_ok (h : m.Owes words []) {beats : Nat} {result : List UInt32}
    (hok : (read m addr beats limit).1 = .ok result) :
    let m₁ := (read m addr beats limit).2
    m₁.capacity = m.capacity ∧ m₁.Owes words [] ∧
      result = (beatsRead m.width m.capacity words addr beats).flatten := by
  obtain ⟨hc, ⟨due₁, h₁, hdue₁⟩, answers, hresult, -, -, hanswers⟩ := read_behind h hok
  obtain rfl := List.length_eq_zero_iff.mp (Nat.le_zero.mp hdue₁)
  rw [List.length_nil, List.drop_zero, Nat.sub_zero] at hanswers
  exact ⟨hc, h₁, by rw [hresult, hanswers]⟩

/-- A write among responses that are on their way. It counts these, too, so it ends when the last
of its own beats may not have been accepted. -/
theorem write_behind (h : m.Owes words due) (hwidth : m.width ≤ maxBeatWords)
    {values : List UInt32} {steps : Nat} (hok : (write m addr values limit).1 = .ok steps) :
    let m₁ := (write m addr values limit).2
    let beats := chunks m.width values
    m₁.width = m.width ∧ m₁.capacity = m.capacity ∧ ∃ n due₁, n ≤ beats.length ∧
      due₁.length + beats.length = due.length + n ∧
      m₁.Owes (beatsWritten m.width (m.capacity / m.width) addr (beats.take n) words) due₁ :=
  writeBeats_ok h hwidth hok

/-- A write to a memory that owes nothing. -/
theorem write_ok (h : m.Owes words []) (hwidth : m.width ≤ maxBeatWords) {values : List UInt32}
    {steps : Nat} (hok : (write m addr values limit).1 = .ok steps) :
    let m₁ := (write m addr values limit).2
    m₁.width = m.width ∧ m₁.capacity = m.capacity ∧
      m₁.Owes
        (beatsWritten m.width (m.capacity / m.width) addr (chunks m.width values) words) [] := by
  obtain ⟨hw, hc, n, due₁, hn, hcount, h₁⟩ := write_behind h hwidth hok
  rw [List.length_nil] at hcount
  obtain rfl : due₁ = [] := List.length_eq_zero_iff.mp (by omega)
  rw [List.length_nil] at hcount
  rw [List.take_of_length_le (by omega)] at h₁
  exact ⟨hw, hc, h₁⟩

/-- A list of words that is found in the beats one after another begins what is read from
them. -/
theorem take_beats {width : Nat} (hwidth : 0 < width) {word : Nat → Nat → UInt32}
    {values : List UInt32}
    (hword : ∀ i j v, j < width → values[i * width + j]? = some v → word i j = v) {n : Nat}
    (hn : values.length ≤ n * width) :
    ((List.range n).flatMap fun i => (List.range width).map (word i)).take values.length =
      values := by
  refine List.ext_getElem? fun k => ?_
  rw [List.getElem?_take]
  split
  · next hk =>
    have hbeat : k / width < n := Nat.div_lt_of_lt_mul (by rw [Nat.mul_comm]; omega)
    have hplace : k % width < width := Nat.mod_lt k hwidth
    have hv : values[k / width * width + k % width]? = some values[k] := by
      rw [Nat.div_add_mod', List.getElem?_eq_getElem hk]
    rw [getElem?_flatMap_of_length hwidth (fun i => by simp), List.getElem?_range hbeat]
    simp [List.getElem?_range hplace, hword _ _ _ hplace hv, hk]
  · next hk => rw [List.getElem?_eq_none (Nat.le_of_not_lt hk)]

/-- **What is written is read back**, whatever requests are turned down and however late the
responses are. A write of no more words than the memory has puts them into the beats from the
address on, where addresses wrap around at 2³² and at the end of the memory; a last beat that is
not whole leaves its other words alone. A read after it gives the words of its beats in order and
changes nothing. After either of them no response is on its way. -/
theorem read_write (hm : m.Reached) (hidle : m.inFlight = 0)
    (haddresses : m.capacity ≤ UInt32.size * m.width) (addr : UInt32) (words : List UInt32)
    (hfit : (words.length + (m.width - 1)) / m.width ≤ m.capacity / m.width) (limit : Nat)
    {steps : Nat} (hwrite : (write m addr words limit).1 = .ok steps) :
    let beats := (words.length + (m.width - 1)) / m.width
    let index := fun i j => (addr.toNat + i) % UInt32.size * m.width + j
    let m₁ := (write m addr words limit).2
    (∀ i j v, j < m.width → words[i * m.width + j]? = some v → m₁.word (index i j) = v) ∧
    m₁.capacity = m.capacity ∧
    (∀ k, (∀ i j, j < m.width → i * m.width + j < words.length →
      index i j % m.capacity ≠ k % m.capacity) → m₁.word k = m.word k) ∧
    m₁.inFlight = 0 ∧
    ∀ limit result, (read m₁ addr beats limit).1 = .ok result →
      let m₂ := (read m₁ addr beats limit).2
      result = ((List.range beats).flatMap fun i =>
        (List.range m.width).map fun j => m₁.word (index i j)) ∧
      result.take words.length = words ∧
      m₂.capacity = m₁.capacity ∧ (∀ k, m₂.word k = m₁.word k) ∧
      m₂.inFlight = 0 := by
  intro beats index m₁
  obtain ⟨hsized, stored, due, h⟩ := hm.owes
  obtain rfl := h.word
  obtain rfl : due = [] := List.length_eq_zero_iff.mp (h.inFlight_eq ▸ hidle)
  have hwidth := h.divided.width_pos
  have hcount := hsized.count_dvd_or_dvd h.divided
  have hcapacity := Nat.mul_div_cancel' h.divided.dvd
  have hlength : (chunks m.width words).length ≤ min (m.capacity / m.width) UInt32.size := by
    have hle : m.capacity / m.width ≤ UInt32.size :=
      Nat.div_le_of_le_mul (by rw [Nat.mul_comm]; exact haddresses)
    rw [length_chunks hwidth]
    exact Nat.le_min.mpr ⟨hfit, Nat.le_trans hfit hle⟩
  obtain ⟨hw, hc, h₁⟩ : m₁.width = m.width ∧ m₁.capacity = m.capacity ∧ m₁.Owes _ [] :=
    write_ok h hsized.width_le hwrite
  have hin : ∀ i j v, j < m.width → words[i * m.width + j]? = some v →
      m₁.word (index i j) = v := by
    intro i j v hj hv
    rw [h₁.word]
    refine beatsWritten_wordIndex hcount hlength hj ?_
    rw [getElem?_chunks _ _ hj, hv]
  refine ⟨hin, hc, ?_, h₁.inFlight_eq, ?_⟩
  · intro k hother
    rw [h₁.word]
    refine beatsWritten_of_other hwidth fun i j v hj hv => ?_
    rw [getElem?_chunks _ _ hj] at hv
    rw [hcapacity]
    exact hother i j hj (List.getElem?_eq_some_iff.mp hv).1
  · intro limit' result hread m₂
    obtain ⟨hc₂, h₂, hresult⟩ : m₂.capacity = m₁.capacity ∧ m₂.Owes _ [] ∧ _ := read_ok h₁ hread
    rw [← h₁.word, flatten_beatsRead, hw] at hresult
    refine ⟨hresult, ?_, hc₂, fun k => ?_, h₂.inFlight_eq⟩
    · rw [hresult]
      refine take_beats hwidth hin ?_
      have hround := @Nat.lt_div_mul_add (words.length + (m.width - 1)) _ hwidth
      show words.length ≤ (words.length + (m.width - 1)) / m.width * m.width
      omega
    · rw [h₂.word, h₁.word]

/-- Three words written to the last beat of a memory and, half of it, to the first, and read back
from there, while one request in two is turned down. -/
theorem read_write_wraps :
    let m : BusMemory RandomStalls := .zeroed 16 3 2 (.ofSeed 2 1)
    let m₁ := (write m 7 [1, 2, 3] 20).2
    m.Reached ∧ m.inFlight = 0 ∧ m.capacity ≤ UInt32.size * m.width ∧
      (3 + (m.width - 1)) / m.width ≤ m.capacity / m.width ∧
      (write m 7 [1, 2, 3] 20).1 = .ok 8 ∧
      m₁.word 14 = 1 ∧ m₁.word 0 = 3 ∧ m₁.word 1 = 0 ∧
      ∃ result, (read m₁ 7 2 20).1 = .ok result ∧ result.take 3 = [1, 2, 3] := by
  intro m m₁
  have hnew : BusMemory.new { BusParameters.standard with
      words := 16, delay := 3, wordsPerBeat := 2 } (RandomStalls.ofSeed 2 1) = .ok m :=
    BusMemory.new_of_valid (by decide) (by decide) _
  have hreached : m.Reached := .new hnew
  have haddresses : m.capacity ≤ UInt32.size * m.width := by decide
  have hfit : (3 + (m.width - 1)) / m.width ≤ m.capacity / m.width := by decide
  have hwrite : (write m 7 [1, 2, 3] 20).1 = .ok 8 := by decide +kernel
  have hread : (read m₁ 7 2 20).1 = .ok [1, 2, 3, 0] := by decide +kernel
  obtain ⟨hin, hcapacity, hother, -, hback⟩ :=
    read_write hreached rfl haddresses 7 [1, 2, 3] hfit 20 hwrite
  have hbeats : (([1, 2, 3] : List UInt32).length + (m.width - 1)) / m.width = 2 := by decide
  rw [hbeats] at hback
  have hwrap : m₁.word 0 = m₁.word 16 := by
    have hzero : 16 % m.capacity = 0 := by decide
    rw [← BusMemory.word_mod m₁ 16, hcapacity, hzero]
  refine ⟨hreached, rfl, haddresses, hfit, hwrite, hin 0 0 1 (by decide) rfl, ?_, ?_, _, hread,
    (hback 20 _ hread).2.1⟩
  · rw [hwrap]
    exact hin 1 0 3 (by decide) rfl
  · rw [hother 1]
    · decide +kernel
    · intro i j _ hlt
      have hin : i * 2 + j < 3 := hlt
      show ((7 + i) % 4294967296 * 2 + j) % 16 ≠ 1
      omega

end BusMaster

end SerialAta
