import Mathlib.Data.Set.Function
import SerialAta.Frame.Wire
import SerialAta.Proofs.Fis.RoundTrip
/-!
# SerialAta.Proofs.Fis.Format

**The format of FISes**: what a layout keeps of a FIS (`Fis.layout_invertible`), and which frames
hold one (`Fis.format_accepted`).

Some values of `Fis` have a layout in common: the layout has room for 48 bits of an address, and a
command is in it by its code alone. `Fis.normal` is the one of them that is read back, and
`Fis.IsNormal` says that it is the value itself.

On the other side are frames that are no layout: a command may be cut short, and words and bits
without a meaning may be anything. What a frame holds is told by `Fis.HeldIn`, place by place, and
what is wrong with one that holds nothing by `Fis.Fault`. Whatever is held is normal, so what has
been read from any frame is read again from its own layout.
-/

namespace SerialAta

/-! ### What a layout keeps -/

namespace Command

/-- The command stands for no command of its own, but has the code of one that is served. -/
def IsDisguised (command : Command) : Prop :=
  ∃ code ∈ [0xC8, 0xCA, 0xE4, 0xE8], command = other code

/-- A command is known by its code unless it is disguised. -/
theorem ofCode_code_iff {command : Command} :
    ofCode command.code = command ↔ ¬command.IsDisguised := by
  cases command with
  | other code =>
      simp only [IsDisguised, List.mem_cons, List.not_mem_nil, or_false, other.injEq,
        exists_eq_right']
      unfold Command.code ofCode
      repeat' split
      all_goals simp_all
  | _ => simp [IsDisguised, Command.code, ofCode]

/-- No code stands for a disguised command. -/
theorem not_isDisguised_ofCode (code : UInt8) : ¬(ofCode code).IsDisguised :=
  ofCode_code_iff.mp (by rw [code_ofCode])

end Command

theorem and_addressMask_eq_mod (lba : UInt64) : lba &&& addressMask = lba % 0x1000000000000 := by
  refine UInt64.toNat_inj.mp ?_
  rw [toNat_and_addressMask, UInt64.toNat_mod]
  rfl

namespace Fis

/-- What the layout of a FIS keeps of it: 48 bits of an address, and the command that has the code
of the one given. -/
def normal : Fis → Fis
  | hostRegister r =>
    hostRegister { r with command := .ofCode r.command.code, lba := r.lba % 0x1000000000000 }
  | deviceRegister r => deviceRegister { r with lba := r.lba % 0x1000000000000 }
  | dmaActivate => dmaActivate
  | pioSetup s => pioSetup s
  | data payload => data payload

/-- The layout of the FIS keeps all of it. -/
def IsNormal : Fis → Prop
  | hostRegister r => r.lba.toNat < addressLimit ∧ ¬r.command.IsDisguised
  | deviceRegister r => r.lba.toNat < addressLimit
  | dmaActivate | pioSetup _ | data _ => True

/-- What is read back from a layout. -/
theorem ofWords_toWords (fis : Fis) : ofWords fis.toWords = .ok fis.normal := by
  cases fis with
  | hostRegister r => rw [ofWords_hostRegister, and_addressMask_eq_mod, normal]
  | deviceRegister r => rw [ofWords_deviceRegister, and_addressMask_eq_mod, normal]
  | dmaActivate => exact ofWords_dmaActivate
  | pioSetup s => exact ofWords_pioSetup s
  | data payload => exact ofWords_data payload

theorem IsNormal.normal_eq {fis : Fis} (h : fis.IsNormal) : fis.normal = fis := by
  cases fis with
  | hostRegister r =>
      rw [normal, Command.ofCode_code_iff.mpr h.2, ← and_addressMask_eq_mod, and_addressMask h.1]
  | deviceRegister r => rw [normal, ← and_addressMask_eq_mod, and_addressMask h]
  | dmaActivate => rfl
  | pioSetup s => rfl
  | data payload => rfl

theorem typeByte_normal (fis : Fis) : fis.normal.typeByte = fis.typeByte := by
  cases fis <;> rfl

/-- **The layout of a FIS can be inverted.** What is read back is the FIS with its address modulo
two to the power of 48 and with the command that its code stands for. So no two FISes that are
kept whole have one layout, and the layout of one kind is never read as another kind. -/
theorem layout_invertible :
    (∀ fis : Fis, ofWords fis.toWords = .ok fis.normal) ∧
      Set.InjOn toWords {fis | fis.IsNormal} ∧
      ∀ fis got : Fis, ofWords fis.toWords = .ok got → got.typeByte = fis.typeByte := by
  refine ⟨ofWords_toWords, fun fis hfis other hother heq => ?_, fun fis got hgot => ?_⟩
  · -- Both are read back from the one layout, and each comes back as it was.
    have hread := ofWords_toWords fis
    rw [heq, ofWords_toWords, IsNormal.normal_eq hfis, IsNormal.normal_eq hother] at hread
    exact (Except.ok.inj hread).symm
  · rw [ofWords_toWords] at hgot
    obtain rfl := Except.ok.inj hgot
    exact typeByte_normal fis

/-! ### What a frame holds -/

/-- The kinds of FISes by their first byte, each with the least length of its frames. -/
def leastLengths : List (UInt8 × Nat) :=
  [(0x27, 1), (0x34, 4), (0x39, 1), (0x46, 1), (0x5F, 5)]

theorem mem_leastLengths {type : UInt8} {least : Nat} :
    (type, least) ∈ leastLengths ↔
      type = 0x27 ∧ least = 1 ∨ type = 0x34 ∧ least = 4 ∨ type = 0x39 ∧ least = 1 ∨
        type = 0x46 ∧ least = 1 ∨ type = 0x5F ∧ least = 5 := by
  simp [leastLengths]

/-- The first byte of the frame names a kind, and the frame is long enough for it. -/
def Readable (frame : Frame) : Prop :=
  ∃ first rest least, frame = first :: rest ∧ (first.toUInt8, least) ∈ leastLengths ∧
    least ≤ frame.length

/-- What is wrong with a frame that is not readable. -/
inductive Fault : Frame → FisError → Prop
  | empty : Fault [] .empty
  | truncated {first : UInt32} {rest : List UInt32} {least : Nat} :
      (first.toUInt8, least) ∈ leastLengths → (first :: rest).length < least →
      Fault (first :: rest) (.truncated first.toUInt8 least (first :: rest).length)
  | unknownType {first : UInt32} {rest : List UInt32} :
      first.toUInt8 ∉ leastLengths.map Prod.fst →
      Fault (first :: rest) (.unknownType first.toUInt8)

/-- The FIS that a frame holds, told by the places of its words. Every place that is looked at is
within the frame. Only the fields of a command read as zero where their places are not. -/
inductive HeldIn (frame : Frame) : Fis → Prop
  | hostRegister (h : 1 ≤ frame.length) :
      frame[0].toUInt8 = 0x27 → HeldIn frame (.hostRegister (.ofWords frame[0] (frame.drop 1)))
  | deviceRegister (h : 4 ≤ frame.length) :
      frame[0].toUInt8 = 0x34 →
      HeldIn frame (.deviceRegister (.ofWords frame[0] frame[1] frame[2] frame[3]))
  | dmaActivate (h : 1 ≤ frame.length) : frame[0].toUInt8 = 0x39 → HeldIn frame .dmaActivate
  | pioSetup (h : 5 ≤ frame.length) :
      frame[0].toUInt8 = 0x5F → HeldIn frame (.pioSetup (.ofWords frame[0] frame[3] frame[4]))
  | data (h : 1 ≤ frame.length) :
      frame[0].toUInt8 = 0x46 → HeldIn frame (.data (frame.drop 1))

variable {frame : Frame} {fis : Fis} {cause : FisError}

theorem exists_cons_of_four_le (h : 4 ≤ frame.length) :
    ∃ w0 w1 w2 w3 rest, frame = w0 :: w1 :: w2 :: w3 :: rest := by
  rcases frame with _ | ⟨w0, _ | ⟨w1, _ | ⟨w2, _ | ⟨w3, rest⟩⟩⟩⟩
  case cons.cons.cons.cons => exact ⟨w0, w1, w2, w3, rest, rfl⟩
  all_goals simp at h

theorem ofWords_of_heldIn (h : HeldIn frame fis) : ofWords frame = .ok fis := by
  cases h with
  | hostRegister hlen htype =>
      obtain ⟨first, rest, rfl⟩ := List.exists_cons_of_length_pos hlen
      exact ofWords_of_host htype rest
  | deviceRegister hlen htype =>
      obtain ⟨first, w1, w2, w3, rest, rfl⟩ := exists_cons_of_four_le hlen
      exact ofWords_of_device htype w1 w2 w3 rest
  | dmaActivate hlen htype =>
      obtain ⟨first, rest, rfl⟩ := List.exists_cons_of_length_pos hlen
      rw [List.getElem_cons_zero] at htype
      simp [ofWords, htype]
  | pioSetup hlen htype =>
      obtain ⟨first, w1, w2, w3, tail, rfl⟩ := exists_cons_of_four_le (Nat.le_of_succ_le hlen)
      simp only [List.length_cons] at hlen
      obtain ⟨w4, rest, rfl⟩ := List.exists_cons_of_length_pos (by omega : 0 < tail.length)
      exact ofWords_of_setup htype w1 w2 w3 w4 rest
  | data hlen htype =>
      obtain ⟨first, rest, rfl⟩ := List.exists_cons_of_length_pos hlen
      rw [List.getElem_cons_zero] at htype
      simp [ofWords, htype]

theorem ofWords_of_fault (h : Fault frame cause) : ofWords frame = .error cause := by
  cases h with
  | empty => rfl
  | @truncated first rest least hleast hlen =>
      rw [List.length_cons] at hlen
      rcases mem_leastLengths.mp hleast with
        ⟨_, rfl⟩ | ⟨htype, rfl⟩ | ⟨_, rfl⟩ | ⟨_, rfl⟩ | ⟨htype, rfl⟩
      · omega
      · rcases rest with _ | ⟨w1, _ | ⟨w2, _ | ⟨w3, rest⟩⟩⟩
        case cons.cons.cons => simp only [List.length_cons] at hlen; omega
        all_goals simp [ofWords, htype]
      · omega
      · omega
      · rcases rest with _ | ⟨w1, _ | ⟨w2, _ | ⟨w3, _ | ⟨w4, rest⟩⟩⟩⟩
        case cons.cons.cons.cons => simp only [List.length_cons] at hlen; omega
        all_goals simp [ofWords, htype]
  | @unknownType first rest hnone =>
      simp only [leastLengths, List.map_cons, List.map_nil, List.mem_cons, List.not_mem_nil,
        or_false, not_or] at hnone
      simp [ofWords, hnone]

theorem Readable.heldIn (h : Readable frame) : ∃ fis, HeldIn frame fis := by
  obtain ⟨first, rest, least, rfl, hleast, hlen⟩ := h
  rcases mem_leastLengths.mp hleast with
    ⟨htype, rfl⟩ | ⟨htype, rfl⟩ | ⟨htype, rfl⟩ | ⟨htype, rfl⟩ | ⟨htype, rfl⟩
  · exact ⟨_, .hostRegister hlen htype⟩
  · exact ⟨_, .deviceRegister hlen htype⟩
  · exact ⟨_, .dmaActivate hlen htype⟩
  · exact ⟨_, .data hlen htype⟩
  · exact ⟨_, .pioSetup hlen htype⟩

theorem exists_fault (h : ¬Readable frame) : ∃ cause, Fault frame cause := by
  cases frame with
  | nil => exact ⟨_, .empty⟩
  | cons first rest =>
      by_cases hknown : first.toUInt8 ∈ leastLengths.map Prod.fst
      · obtain ⟨⟨type, least⟩, hleast, htype⟩ := List.mem_map.mp hknown
        obtain rfl : type = first.toUInt8 := htype
        refine ⟨_, .truncated hleast (Nat.lt_of_not_le fun hlen => h ?_)⟩
        exact ⟨first, rest, least, rfl, hleast, hlen⟩
      · exact ⟨_, .unknownType hknown⟩

theorem readable_of_type {least : Nat} (hpos : 1 ≤ frame.length)
    (htype : (frame[0].toUInt8, least) ∈ leastLengths) (hlen : least ≤ frame.length) :
    Readable frame :=
  ⟨frame[0], frame.drop 1, least, List.drop_eq_getElem_cons (i := 0) hpos, htype, hlen⟩

theorem HeldIn.readable (h : HeldIn frame fis) : Readable frame := by
  cases h with
  | hostRegister hlen htype => exact readable_of_type hlen (by rw [htype]; decide) hlen
  | deviceRegister hlen htype => exact readable_of_type (by omega) (by rw [htype]; decide) hlen
  | dmaActivate hlen htype => exact readable_of_type hlen (by rw [htype]; decide) hlen
  | pioSetup hlen htype => exact readable_of_type (by omega) (by rw [htype]; decide) hlen
  | data hlen htype => exact readable_of_type hlen (by rw [htype]; decide) hlen

/-- What is read is what the frame holds. -/
theorem ofWords_eq_ok_iff : ofWords frame = .ok fis ↔ HeldIn frame fis := by
  refine ⟨fun h => ?_, ofWords_of_heldIn⟩
  by_cases hread : Readable frame
  · obtain ⟨held, hheld⟩ := hread.heldIn
    rw [ofWords_of_heldIn hheld] at h
    exact Except.ok.inj h ▸ hheld
  · obtain ⟨cause, hfault⟩ := exists_fault hread
    rw [ofWords_of_fault hfault] at h
    cases h

/-- What is reported is the fault of the frame. -/
theorem ofWords_eq_error_iff : ofWords frame = .error cause ↔ Fault frame cause := by
  refine ⟨fun h => ?_, ofWords_of_fault⟩
  by_cases hread : Readable frame
  · obtain ⟨held, hheld⟩ := hread.heldIn
    rw [ofWords_of_heldIn hheld] at h
    cases h
  · obtain ⟨found, hfault⟩ := exists_fault hread
    rw [ofWords_of_fault hfault] at h
    exact Except.error.inj h ▸ hfault

/-! ### What is read is normal -/

theorem toNat_join_lt (low high : UInt32) :
    ((low &&& 0xFFFFFF).toUInt64 ||| ((high &&& 0xFFFFFF).toUInt64 <<< 24)).toNat <
      addressLimit := by
  have hlow : (low &&& 0xFFFFFF).toNat < 2 ^ 24 := by
    rw [UInt32.toNat_and]
    exact Nat.lt_of_le_of_lt Nat.and_le_right (by decide)
  have hhigh : (high &&& 0xFFFFFF).toNat < 2 ^ 24 := by
    rw [UInt32.toNat_and]
    exact Nat.lt_of_le_of_lt Nat.and_le_right (by decide)
  rw [UInt64.toNat_or]
  refine Nat.or_lt_two_pow (n := 48) ?_ ?_
  · rw [UInt32.toNat_toUInt64]
    omega
  · simp only [UInt64.toNat_shiftLeft, UInt32.toNat_toUInt64, Nat.shiftLeft_eq,
      UInt64.reduceToNat, Nat.reduceMod, Nat.reducePow]
    omega

theorem lba_ofWords_lt (first : UInt32) (rest : List UInt32) :
    (HostRegister.ofWords first rest).lba.toNat < addressLimit := by
  have hlong := toNat_join_lt (rest.getD 0 0) (rest.getD 1 0)
  simp only [HostRegister.ofWords]
  split
  · -- The nibble of a short address is below the limit, too.
    have hnibble : ((first >>> 8) &&& 0x0F).toNat < 2 ^ 4 := by
      rw [UInt32.toNat_and]
      exact Nat.lt_of_le_of_lt Nat.and_le_right (by decide)
    rw [UInt64.toNat_or]
    refine Nat.or_lt_two_pow (n := 48) hlong ?_
    simp only [UInt64.toNat_shiftLeft, UInt32.toNat_toUInt64, Nat.shiftLeft_eq,
      UInt64.reduceToNat, Nat.reduceMod, Nat.reducePow]
    omega
  · exact hlong

theorem HeldIn.isNormal (h : HeldIn frame fis) : fis.IsNormal := by
  cases h with
  | hostRegister => exact ⟨lba_ofWords_lt _ _, Command.not_isDisguised_ofCode _⟩
  | deviceRegister => exact toNat_join_lt _ _
  | dmaActivate => trivial
  | pioSetup => trivial
  | data => trivial

/-- **Reading accepts exactly the format, and normalises.** A frame is read if its first byte names
a kind and it is long enough for it. Otherwise its fault is reported: that it is empty, that it is
too short, with the length that is needed, or that its type is not known. What is read is what the
frame holds, and no place beyond its end is looked at. All of it is kept by its own layout, from
which the same is read again. -/
theorem format_accepted (frame : Frame) :
    ((∃ fis, ofWords frame = .ok fis) ↔ Readable frame) ∧
      (∀ cause, ofWords frame = .error cause ↔ Fault frame cause) ∧
      (∀ fis, ofWords frame = .ok fis ↔ HeldIn frame fis) ∧
      ∀ fis, ofWords frame = .ok fis → fis.IsNormal ∧ ofWords fis.toWords = .ok fis := by
  refine ⟨⟨?_, fun hread => ?_⟩, fun _ => ofWords_eq_error_iff, fun _ => ofWords_eq_ok_iff, ?_⟩
  · rintro ⟨fis, h⟩
    exact (ofWords_eq_ok_iff.mp h).readable
  · obtain ⟨fis, hheld⟩ := hread.heldIn
    exact ⟨fis, ofWords_of_heldIn hheld⟩
  · intro fis h
    have hnormal := (ofWords_eq_ok_iff.mp h).isNormal
    refine ⟨hnormal, ?_⟩
    rw [ofWords_toWords, hnormal.normal_eq]

end Fis

end SerialAta
