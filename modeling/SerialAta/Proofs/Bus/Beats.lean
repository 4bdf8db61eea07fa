import SerialAta.Bus.Memory
/-!
# SerialAta.Proofs.Bus.Beats

**What a beat does to the memory**, word by word.

The size of a memory is a multiple of the beat width (`divided_new`), so the memory is divided
into beats: word `i` has the place `i % width` in the beat `i / width`, and addresses that
differ by a multiple of the number of beats mean the same beat (`beat_index_eq_iff`). So a beat
writes each of its words once, whatever the address (`word_writeBeat`), and the effect of a
request on the memory can be said without an order of writing (`BusRequest.written`,
`word_accept`).
-/

namespace SerialAta

theorem beat_index_div {width address place : Nat} (hplace : place < width) :
    (address * width + place) / width = address := by
  rw [Nat.add_comm, Nat.add_mul_div_right _ _ (by omega), Nat.div_eq_of_lt hplace, Nat.zero_add]

theorem beat_index_mod {width address place : Nat} (hplace : place < width) :
    (address * width + place) % width = place := by
  rw [Nat.add_comm, Nat.add_mul_mod_self_right, Nat.mod_eq_of_lt hplace]

/-- Whether an index that wraps around at the end of the memory is that of word `i`: it has to be
in the same beat, and at the same place there. -/
theorem beat_index_eq_iff {width beats address place i : Nat} (hplace : place < width) :
    (address * width + place) % (width * beats) = i % (width * beats) ↔
      address % beats = i / width % beats ∧ i % width = place := by
  have hpos : 0 < width := by omega
  rw [Nat.mod_mul, Nat.mod_mul, beat_index_div hplace, beat_index_mod hplace]
  constructor
  · intro heq
    have hlow := congrArg (· % width) heq
    have hhigh := congrArg (· / width) heq
    simp only [Nat.add_mul_mod_self_left, Nat.mod_eq_of_lt hplace, Nat.mod_mod] at hlow
    simp only [Nat.add_mul_div_left _ _ hpos, Nat.div_eq_of_lt hplace,
      Nat.div_eq_of_lt (Nat.mod_lt i hpos), Nat.zero_add] at hhigh
    exact ⟨hhigh, hlow.symm⟩
  · rintro ⟨hsame, rfl⟩
    rw [hsame]

/-- The words of a memory after a write, given those before it. Word `i` is written if it is in the
beat and the request has a word for its place; its bytes are those that are selected there. -/
def BusRequest.written (req : BusRequest) (width capacity : Nat) (words : Nat → UInt32) (i : Nat) :
    UInt32 :=
  if req.addr.toNat % (capacity / width) = i / width % (capacity / width) then
    match req.data[i % width]? with
    | none => words i
    | some value =>
      BusMemory.merge (BusMemory.byteMask (BusMemory.selectOf req.sel width (i % width))) value
        (words i)
  else words i

/-- The words of the beat that a request asks for. -/
def BusRequest.asked (req : BusRequest) (width capacity : Nat) (words : Nat → UInt32) :
    List UInt32 :=
  (List.range width).map fun k => words ((req.addr.toNat * width + k) % capacity)

theorem BusRequest.length_asked (req : BusRequest) (width capacity : Nat) (words : Nat → UInt32) :
    (req.asked width capacity words).length = width := by
  rw [asked, List.length_map, List.length_range]

/-- The response to a request; a read is answered with words. -/
def BusRequest.response (req : BusRequest) (width capacity : Nat) (words : Nat → UInt32) :
    Option (List UInt32) :=
  if req.we then none else some (req.asked width capacity words)

namespace BusMemory

variable {σ : Type} {m : BusMemory σ}

/-- The memory consists of whole beats. -/
structure Divided (m : BusMemory σ) : Prop where
  width_pos : 0 < m.width
  capacity_pos : 0 < m.capacity
  dvd : m.width ∣ m.capacity

theorem Divided.of_eq {m' : BusMemory σ} (h : m.Divided) (hwidth : m'.width = m.width)
    (hcapacity : m'.capacity = m.capacity) : m'.Divided := by
  refine ⟨?_, ?_, ?_⟩
  · rw [hwidth]
    exact h.width_pos
  · rw [hcapacity]
    exact h.capacity_pos
  · rw [hwidth, hcapacity]
    exact h.dvd

/-! ### A new memory -/

/-- What the parameters of a memory have to be like, and what it looks like. -/
theorem new_ok {parameters : BusParameters} {stalls : σ} (hnew : new parameters stalls = .ok m) :
    1 ≤ parameters.delay.toNat ∧ isBeatWidth parameters.wordsPerBeat = true ∧
      m = zeroed parameters.words parameters.delay.toNat parameters.wordsPerBeat.toNat stalls := by
  unfold new at hnew
  split at hnew
  · cases hnew
  · next hdelay =>
    split at hnew
    · cases hnew
    · next hwidth =>
      refine ⟨?_, by simpa using hwidth, (Except.ok.inj hnew).symm⟩
      have hne : parameters.delay.toNat ≠ 0 := fun h => hdelay (UInt32.toNat_inj.mp h)
      omega

theorem new_of_valid {parameters : BusParameters} (hdelay : 1 ≤ parameters.delay.toNat)
    (hwidth : isBeatWidth parameters.wordsPerBeat = true) (stalls : σ) :
    new parameters stalls = .ok
      (zeroed parameters.words parameters.delay.toNat parameters.wordsPerBeat.toNat stalls) := by
  have hne : parameters.delay ≠ 0 := fun h => by
    rw [h] at hdelay
    exact absurd hdelay (by decide)
  rw [new, if_neg hne, hwidth]
  rfl

theorem divided_zeroed {words delay width : Nat} {stalls : σ} (hpos : 0 < width)
    (hpower : width.isPowerOfTwo) : (zeroed words delay width stalls).Divided := by
  have hle : width ≤ ceilPowerOfTwo (max words width) :=
    Nat.le_trans (Nat.le_max_right _ _) (le_ceilPowerOfTwo _)
  refine ⟨hpos, Nat.lt_of_lt_of_le hpos hle, ?_⟩
  obtain ⟨a, ha⟩ := hpower
  obtain ⟨b, hb⟩ := isPowerOfTwo_ceilPowerOfTwo (max words width)
  show width ∣ ceilPowerOfTwo (max words width)
  rw [hb, ha] at hle ⊢
  exact Nat.pow_dvd_pow 2 ((Nat.pow_le_pow_iff_right (by decide)).mp hle)

theorem divided_new {parameters : BusParameters} {stalls : σ}
    (hnew : new parameters stalls = .ok m) : m.Divided := by
  obtain ⟨-, hwidth, rfl⟩ := new_ok hnew
  simp only [isBeatWidth, Bool.and_eq_true, decide_eq_true_eq] at hwidth
  exact divided_zeroed hwidth.1.1 hwidth.2

/-! ### Single words -/

@[simp] theorem width_modifyWord (m : BusMemory σ) (addr : Nat) (f : UInt32 → UInt32) :
    (m.modifyWord addr f).width = m.width := rfl

@[simp] theorem capacity_modifyWord (m : BusMemory σ) (addr : Nat) (f : UInt32 → UInt32) :
    (m.modifyWord addr f).capacity = m.capacity := rfl

theorem word_modifyWord (hpos : 0 < m.capacity) (addr : Nat) (f : UInt32 → UInt32) (i : Nat) :
    (m.modifyWord addr f).word i =
      if addr % m.capacity = i % m.capacity then f (m.word i) else m.word i := by
  show (m.cells.modify _ f).get (i % m.capacity) = _
  rw [Store.get_modify]
  have hlt : i % m.capacity < m.capacity := Nat.mod_lt _ hpos
  simp only [hlt, and_true]
  rfl

@[simp] theorem word_mod (m : BusMemory σ) (i : Nat) : m.word (i % m.capacity) = m.word i := by
  rw [word, word, Nat.mod_mod]

/-! ### Beats -/

@[simp] theorem width_writeBeat (m : BusMemory σ) (base : Nat) (sel : UInt64) (k : Nat)
    (words : List UInt32) : (m.writeBeat base sel k words).width = m.width := by
  induction words generalizing m k with
  | nil => rfl
  | cons value words ih => exact ih _ _

@[simp] theorem capacity_writeBeat (m : BusMemory σ) (base : Nat) (sel : UInt64) (k : Nat)
    (words : List UInt32) : (m.writeBeat base sel k words).capacity = m.capacity := by
  induction words generalizing m k with
  | nil => rfl
  | cons value words ih => exact ih _ _

@[simp] theorem responses_writeBeat (m : BusMemory σ) (base : Nat) (sel : UInt64) (k : Nat)
    (words : List UInt32) : (m.writeBeat base sel k words).responses = m.responses := by
  induction words generalizing m k with
  | nil => rfl
  | cons value words ih => exact ih _ _

@[simp] theorem stalls_writeBeat (m : BusMemory σ) (base : Nat) (sel : UInt64) (k : Nat)
    (words : List UInt32) : (m.writeBeat base sel k words).stalls = m.stalls := by
  induction words generalizing m k with
  | nil => rfl
  | cons value words ih => exact ih _ _

/-- Writing the words of a beat from place `k` on. -/
theorem word_writeBeat (hm : m.Divided) (address : Nat) (sel : UInt64) {k : Nat}
    {words : List UInt32} (hk : k + words.length ≤ m.width) (i : Nat) :
    (m.writeBeat (address * m.width) sel k words).word i =
      if address % (m.capacity / m.width) = i / m.width % (m.capacity / m.width) ∧
          k ≤ i % m.width then
        match words[i % m.width - k]? with
        | none => m.word i
        | some value => merge (byteMask (selectOf sel m.width (i % m.width))) value (m.word i)
      else m.word i := by
  induction words generalizing m k with
  | nil =>
      rw [writeBeat]
      split <;> rfl
  | cons value words ih =>
      rw [List.length_cons] at hk
      let m₁ := m.modifyWord (address * m.width + k)
        (merge (byteMask (selectOf sel m.width k)) value)
      have hm₁ : m₁.Divided := hm.of_eq rfl rfl
      have hindex := @beat_index_eq_iff m.width (m.capacity / m.width) address k i (by omega)
      rw [Nat.mul_div_cancel' hm.dvd] at hindex
      have hword := word_modifyWord hm.capacity_pos (address * m.width + k)
        (merge (byteMask (selectOf sel m.width k)) value) i
      simp only [hindex] at hword
      have hrest : (m₁.writeBeat (address * m.width) sel (k + 1) words).word i = _ :=
        ih hm₁ (k := k + 1) (by show k + 1 + words.length ≤ m.width; omega)
      rw [writeBeat, hrest]
      simp only [m₁, width_modifyWord, capacity_modifyWord, hword]
      by_cases hsame : address % (m.capacity / m.width) = i / m.width % (m.capacity / m.width)
      · simp only [hsame, true_and]
        by_cases hplace : i % m.width = k
        · rw [if_neg (by omega), if_pos hplace, if_pos (by omega), hplace, Nat.sub_self]
          rfl
        · rw [if_neg hplace]
          by_cases hlater : k ≤ i % m.width
          · have hnext : i % m.width - k = i % m.width - (k + 1) + 1 := by omega
            rw [if_pos (by omega), if_pos hlater, hnext, List.getElem?_cons_succ]
          · rw [if_neg (by omega), if_neg hlater]
      · simp only [hsame, false_and, if_false]

/-! ### Requests -/

@[simp] theorem width_accept (m : BusMemory σ) (req : BusRequest) :
    (m.accept req).width = m.width := by
  unfold accept
  dsimp only
  split
  · exact width_writeBeat ..
  · rfl

@[simp] theorem capacity_accept (m : BusMemory σ) (req : BusRequest) :
    (m.accept req).capacity = m.capacity := by
  unfold accept
  dsimp only
  split
  · exact capacity_writeBeat ..
  · rfl

@[simp] theorem stalls_accept (m : BusMemory σ) (req : BusRequest) :
    (m.accept req).stalls = m.stalls := by
  unfold accept
  dsimp only
  split
  · exact stalls_writeBeat ..
  · rfl

theorem responses_accept (m : BusMemory σ) (req : BusRequest) :
    (m.accept req).responses = m.responses.put (req.response m.width m.capacity m.word) := by
  unfold accept BusRequest.response
  dsimp only
  split
  · rw [responses_writeBeat]
  · rw [readBeat, BusRequest.asked]
    simp only [word_mod]

/-- The memory after a request that was accepted. -/
theorem word_accept (hm : m.Divided) (req : BusRequest) (i : Nat) :
    (m.accept req).word i =
      if req.we then req.written m.width m.capacity m.word i else m.word i := by
  unfold accept
  dsimp only
  split
  · have hlength : 0 + (req.data.take m.width).length ≤ m.width := by
      rw [List.length_take]
      omega
    have hplace : i % m.width < m.width := Nat.mod_lt _ hm.width_pos
    refine (word_writeBeat hm req.addr.toNat req.sel hlength i).trans ?_
    simp only [Nat.zero_le, and_true, Nat.sub_zero, List.getElem?_take, if_pos hplace]
    rfl
  · rfl

end BusMemory

end SerialAta
