import SerialAta.Fis.Words
import SerialAta.Storage.ByteImage
/-!
# SerialAta.Proofs.Fis.RoundTrip

**Reading a FIS back** from its layout.

A register FIS puts four bytes into its first word and an address of 48 bits into the next two.
What is read back from the bytes is the bytes (`ByteImage.byte_word`), and what is read back
from the two words is the address without its upper sixteen bits (`join_address`). The nibble
in the first word of a command does not get in the way: it counts only where the upper half of
the address is zero, and there the nibble is zero, too.
-/

namespace SerialAta

/-! ### Addresses -/

/-- The bits of an address that the layout of a register FIS carries. -/
def addressMask : UInt64 := 0xFFFFFFFFFFFF

/-- Two to the power of 48: addresses below it are carried as they are. -/
def addressLimit : Nat := 0x1000000000000

theorem toNat_and_addressMask (lba : UInt64) :
    (lba &&& addressMask).toNat = lba.toNat % addressLimit := by
  rw [UInt64.toNat_and]
  exact Nat.and_two_pow_sub_one_eq_mod lba.toNat 48

theorem and_addressMask {lba : UInt64} (h : lba.toNat < addressLimit) :
    lba &&& addressMask = lba := by
  refine UInt64.toNat_inj.mp ?_
  rw [toNat_and_addressMask, Nat.mod_eq_of_lt h]

theorem toNat_and_low (lba : UInt64) : (lba &&& 0xFFFFFF).toNat = lba.toNat % 0x1000000 := by
  rw [UInt64.toNat_and]
  exact Nat.and_two_pow_sub_one_eq_mod lba.toNat 24

theorem toNat_low (lba : UInt64) : (lba &&& 0xFFFFFF).toUInt32.toNat = lba.toNat % 0x1000000 := by
  rw [UInt64.toNat_toUInt32, toNat_and_low]
  omega

theorem toNat_high (lba : UInt64) :
    ((lba >>> 24) &&& 0xFFFFFF).toUInt32.toNat = lba.toNat / 0x1000000 % 0x1000000 := by
  rw [toNat_low, UInt64.toNat_shiftRight]
  exact congrArg (· % 0x1000000) (Nat.shiftRight_eq_div_pow ..)

/-- The byte above an address in its first word. -/
theorem toNat_device (device : UInt8) (lba : UInt64) :
    ((device.toUInt32 <<< 24) ||| (lba &&& 0xFFFFFF).toUInt32).toNat =
      device.toNat * 0x1000000 + lba.toNat % 0x1000000 := by
  have hbyte := device.toNat_lt
  have hshift : (device.toUInt32 <<< 24).toNat = device.toNat <<< 24 := by
    simp only [UInt32.toNat_shiftLeft, UInt8.toNat_toUInt32, Nat.shiftLeft_eq,
      UInt32.reduceToNat, Nat.reduceMod, Nat.reducePow]
    omega
  rw [UInt32.toNat_or, hshift, toNat_low,
    ← Nat.shiftLeft_add_eq_or_of_lt (Nat.mod_lt _ (by decide)), Nat.shiftLeft_eq]

theorem and_device (device : UInt8) (lba : UInt64) :
    (((device.toUInt32 <<< 24) ||| (lba &&& 0xFFFFFF).toUInt32) &&& 0xFFFFFF).toNat =
      lba.toNat % 0x1000000 := by
  rw [UInt32.toNat_and, toNat_device]
  refine (Nat.and_two_pow_sub_one_eq_mod _ 24).trans ?_
  omega

theorem shiftRight_device (device : UInt8) (lba : UInt64) :
    (((device.toUInt32 <<< 24) ||| (lba &&& 0xFFFFFF).toUInt32) >>> 24).toUInt8 = device := by
  refine UInt8.toNat_inj.mp ?_
  have hbyte := device.toNat_lt
  simp only [UInt32.toNat_toUInt8, UInt32.toNat_shiftRight, toNat_device,
    Nat.shiftRight_eq_div_pow, UInt32.reduceToNat, Nat.reduceMod, Nat.reducePow]
  omega

/-- The halves of an address, put together again. -/
theorem join_address {low high : UInt32} {lba : UInt64}
    (hlow : (low &&& 0xFFFFFF).toNat = lba.toNat % 0x1000000)
    (hhigh : high.toNat = lba.toNat / 0x1000000 % 0x1000000) :
    (low &&& 0xFFFFFF).toUInt64 ||| ((high &&& 0xFFFFFF).toUInt64 <<< 24) =
      lba &&& addressMask := by
  refine UInt64.toNat_inj.mp ?_
  have hmask : (high &&& 0xFFFFFF).toNat = high.toNat := by
    rw [UInt32.toNat_and]
    refine (Nat.and_two_pow_sub_one_eq_mod _ 24).trans ?_
    omega
  have hshift : ((high &&& 0xFFFFFF).toUInt64 <<< 24).toNat = high.toNat <<< 24 := by
    simp only [UInt64.toNat_shiftLeft, UInt32.toNat_toUInt64, hmask, Nat.shiftLeft_eq,
      UInt64.reduceToNat, Nat.reduceMod, Nat.reducePow]
    omega
  -- The halves do not overlap, so joining them is adding them.
  rw [toNat_and_addressMask, addressLimit, UInt64.toNat_or, UInt32.toNat_toUInt64, hlow, hshift,
    Nat.or_comm, ← Nat.shiftLeft_add_eq_or_of_lt (Nat.mod_lt _ (by decide)), Nat.shiftLeft_eq,
    hhigh]
  omega

/-! ### First words -/

/-- Four bytes as a layout puts them together, the type last. -/
theorem word_of_layout (b3 b2 b1 b0 : UInt8) :
    (b3.toUInt32 <<< 24) ||| (b2.toUInt32 <<< 16) ||| (b1.toUInt32 <<< 8) ||| b0.toUInt32 =
      ByteImage.word b0 b1 b2 b3 := by
  rw [ByteImage.word, UInt32.or_comm _ b0.toUInt32, UInt32.or_comm (b3.toUInt32 <<< 24),
    UInt32.or_comm _ (b1.toUInt32 <<< 8)]
  simp only [UInt32.or_assoc]

/-- What is read from the first word of a layout. -/
theorem fields_of_layout (b3 b2 b1 b0 : UInt8) (kind : UInt32) (hkind : b0.toUInt32 = kind) :
    let word := (b3.toUInt32 <<< 24) ||| (b2.toUInt32 <<< 16) ||| (b1.toUInt32 <<< 8) ||| kind
    word.toUInt8 = b0 ∧ (word >>> 8).toUInt8 = b1 ∧ (word >>> 16).toUInt8 = b2 ∧
      (word >>> 24).toUInt8 = b3 := by
  intro word
  obtain ⟨h0, h1, h2, h3⟩ := ByteImage.byte_word b0 b1 b2 b3
  rw [← word_of_layout, hkind] at h0 h1 h2 h3
  have hunshifted : (word >>> 0).toUInt8 = b0 := h0
  rw [UInt32.shiftRight_zero] at hunshifted
  exact ⟨hunshifted, h1, h2, h3⟩

/-- The second byte of a command holds a nibble of the address. -/
theorem device_nibble (lba : UInt64) :
    deviceLba.toUInt32 ||| ((lba >>> 24) &&& 0x0F).toUInt32 =
      (deviceLba ||| ((lba >>> 24) &&& 0x0F).toUInt8).toUInt32 := by
  have hnibble : ((lba >>> 24) &&& 0x0F).toNat = (lba >>> 24).toNat % 16 := by
    rw [UInt64.toNat_and]
    exact Nat.and_two_pow_sub_one_eq_mod _ 4
  refine UInt32.toNat_inj.mp ?_
  simp only [UInt32.toNat_or, UInt8.toNat_toUInt32, UInt8.toNat_or, UInt64.toNat_toUInt32,
    UInt64.toNat_toUInt8, hnibble]
  congr 1
  omega

/-- Where the upper half of an address is zero, so is the nibble. -/
theorem nibble_eq_zero {lba : UInt64} (h : ((lba >>> 24) &&& 0xFFFFFF).toUInt32 = 0) :
    ((lba >>> 24) &&& 0x0F).toUInt8 = 0 := by
  have hhigh := congrArg UInt32.toNat h
  rw [toNat_low] at hhigh
  refine UInt8.toNat_inj.mp ?_
  rw [UInt64.toNat_toUInt8, UInt64.toNat_and]
  refine (congrArg (· % 256) (Nat.and_two_pow_sub_one_eq_mod _ 4)).trans ?_
  have hzero : (0 : UInt32).toNat = 0 := rfl
  have hzero' : (0 : UInt8).toNat = 0 := rfl
  omega

/-- The nibble read from the second byte of a word. -/
theorem and_nibble (word : UInt32) :
    (word >>> 8) &&& (0x0F : UInt32) = ((word >>> 8).toUInt8 &&& 0x0F).toUInt32 := by
  refine UInt32.toNat_inj.mp ?_
  have hword := Nat.and_two_pow_sub_one_eq_mod (word >>> 8).toNat 4
  have hbyte := Nat.and_two_pow_sub_one_eq_mod (word >>> 8).toUInt8.toNat 4
  rw [UInt32.toNat_and, UInt8.toNat_toUInt32, UInt8.toNat_and]
  refine hword.trans (Eq.trans ?_ hbyte.symm)
  rw [UInt32.toNat_toUInt8]
  omega

/-! ### FISes -/

namespace Fis

/-- Every layout has a first word. -/
theorem length_toWords_pos (fis : Fis) : 1 ≤ fis.toWords.length := by
  cases fis <;> exact Nat.succ_le_of_lt (Nat.succ_pos _)

theorem isEmpty_toWords (fis : Fis) : fis.toWords.isEmpty = false :=
  List.isEmpty_eq_false_iff.mpr (List.ne_nil_of_length_pos fis.length_toWords_pos)

theorem ofWords_of_host {first : UInt32} (h : first.toUInt8 = 0x27) (rest : List UInt32) :
    ofWords (first :: rest) = .ok (.hostRegister (.ofWords first rest)) :=
  if_pos h

theorem ofWords_of_device {first : UInt32} (h : first.toUInt8 = 0x34) (w1 w2 w3 : UInt32)
    (rest : List UInt32) :
    ofWords (first :: w1 :: w2 :: w3 :: rest) =
      .ok (.deviceRegister (.ofWords first w1 w2 w3)) := by
  rw [ofWords, h]
  rfl

theorem ofWords_of_setup {first : UInt32} (h : first.toUInt8 = 0x5F) (w1 w2 w3 w4 : UInt32)
    (rest : List UInt32) :
    ofWords (first :: w1 :: w2 :: w3 :: w4 :: rest) = .ok (.pioSetup (.ofWords first w3 w4)) := by
  rw [ofWords, h]
  rfl

/-- A command comes back with an address of 48 bits. A code that stands for a command is not
kept apart from it. -/
theorem ofWords_hostRegister (r : HostRegister) :
    ofWords (hostRegister r).toWords =
      .ok (.hostRegister
        { r with command := .ofCode r.command.code, lba := r.lba &&& addressMask }) := by
  obtain ⟨htype, hdevice, hcode, hfeatures⟩ := fields_of_layout r.features r.command.code
    (deviceLba ||| ((r.lba >>> 24) &&& 0x0F).toUInt8) 0x27 0x27 rfl
  have hlba := join_address (and_device deviceLba r.lba) (toNat_high r.lba)
  have hcount : r.count.toUInt32.toUInt8 = r.count := UInt8.toUInt8_toUInt32 r.count
  rw [toWords, HostRegister.toWords, device_nibble, ofWords_of_host htype]
  congr 2
  rw [HostRegister.ofWords, hcode, hfeatures]
  simp only [List.getD_cons_zero, List.getD_cons_succ, hlba, hcount]
  congr 1
  split
  · next hhigh =>
    -- The third word is zero, so the nibble is read; but it repeats bits of that word.
    rw [and_nibble, hdevice, nibble_eq_zero hhigh]
    exact UInt64.or_zero
  · rfl

/-- A report comes back with an address of 48 bits. -/
theorem ofWords_deviceRegister (r : DeviceRegister) :
    ofWords (deviceRegister r).toWords =
      .ok (.deviceRegister { r with lba := r.lba &&& addressMask }) := by
  obtain ⟨htype, hflags, hstatus, herror⟩ :=
    fields_of_layout r.error r.status r.flags 0x34 0x34 rfl
  have hlba := join_address (and_device r.device r.lba) (toNat_high r.lba)
  have hcount : r.count.toUInt32.toUInt16 = r.count := UInt16.toUInt16_toUInt32 r.count
  rw [toWords, DeviceRegister.toWords, ofWords_of_device htype, DeviceRegister.ofWords, hstatus,
    herror, hflags, shiftRight_device, hlba, hcount]

/-- A setup comes back as it is. -/
theorem ofWords_pioSetup (s : PioSetup) : ofWords (pioSetup s).toWords = .ok (.pioSetup s) := by
  let direction : UInt8 := if s.toHost then PioSetup.directionBit else 0
  obtain ⟨htype, hdirection, hstatus, -⟩ := fields_of_layout 0 s.status direction 0x5F 0x5F rfl
  have hzero : (0 : UInt8).toUInt32 <<< 24 ||| s.status.toUInt32 <<< 16 =
      s.status.toUInt32 <<< 16 := UInt32.zero_or
  rw [hzero] at htype hdirection hstatus
  have hend : ((s.endStatus.toUInt32 <<< 24) >>> 24).toUInt8 = s.endStatus := by
    refine UInt8.toNat_inj.mp ?_
    have hbyte := s.endStatus.toNat_lt
    simp only [UInt32.toNat_toUInt8, UInt32.toNat_shiftRight, UInt32.toNat_shiftLeft,
      UInt8.toNat_toUInt32, Nat.shiftLeft_eq, Nat.shiftRight_eq_div_pow, UInt32.reduceToNat,
      Nat.reduceMod, Nat.reducePow]
    omega
  have hbytes : ((s.transferBytes.toUInt32 <<< 8) >>> 8).toUInt16 = s.transferBytes := by
    refine UInt16.toNat_inj.mp ?_
    have hhalf := s.transferBytes.toNat_lt
    simp only [UInt32.toNat_toUInt16, UInt32.toNat_shiftRight, UInt32.toNat_shiftLeft,
      UInt16.toNat_toUInt32, Nat.shiftLeft_eq, Nat.shiftRight_eq_div_pow, UInt32.reduceToNat,
      Nat.reduceMod, Nat.reducePow]
    omega
  have htoHost : (direction &&& PioSetup.directionBit != 0) = s.toHost := by
    simp only [direction]
    cases s.toHost <;> rfl
  have hlayout : (pioSetup s).toWords =
      [(s.status.toUInt32 <<< 16) ||| (direction.toUInt32 <<< 8) ||| 0x5F, 0, 0,
        s.endStatus.toUInt32 <<< 24, s.transferBytes.toUInt32 <<< 8] := by
    simp only [toWords, PioSetup.toWords, direction]
  rw [hlayout, ofWords_of_setup htype, PioSetup.ofWords, hdirection, hstatus, hend, hbytes, htoHost]

@[simp] theorem ofWords_dmaActivate : ofWords dmaActivate.toWords = .ok dmaActivate := rfl

@[simp] theorem ofWords_data (payload : List UInt32) :
    ofWords (data payload).toWords = .ok (data payload) := rfl

/-- Every layout can be read. -/
theorem exists_ofWords (fis : Fis) : ∃ got, ofWords fis.toWords = .ok got := by
  cases fis with
  | hostRegister r => exact ⟨_, ofWords_hostRegister r⟩
  | deviceRegister r => exact ⟨_, ofWords_deviceRegister r⟩
  | dmaActivate => exact ⟨_, ofWords_dmaActivate⟩
  | pioSetup s => exact ⟨_, ofWords_pioSetup s⟩
  | data payload => exact ⟨_, ofWords_data payload⟩

end Fis

end SerialAta
