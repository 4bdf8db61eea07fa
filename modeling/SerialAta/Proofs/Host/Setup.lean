import Mathlib.Order.Bounds.Basic
import SerialAta.Host.Setup
import SerialAta.Proofs.Bus.Answers
import SerialAta.Proofs.Link.OpeningBurst
import SerialAta.Proofs.Phy.Bursts
import SerialAta.Proofs.Storage.Files
import SerialAta.Settings.Fields
import SerialAta.Settings.Load
/-!
# SerialAta.Proofs.Host.Setup

**Settings that are accepted can be set up** (`Settings.accepted_can_be_set_up`), and what is set
up does what they say.

Settings are examined before there is anything to set up, and the bus memory examines its parameters
once more. The two agree (`isBeatWidth_iff`, `Settings.defect?_eq_none_iff`), so after a successful
examination only an image can be in the way, if there is room for disk and memory
(`Settings.Fits`). What the settings say of a memory is in `BusMemory.Obeys`, and of a drive in
`Drive.Obeys`: sizes and contents at the start, and the delay, the opening burst and the idle steps
as they show in every run.

None of this depends on how a text is read or on the random numbers that stalls are drawn from, with
or without a seed; so both are left open.
-/

namespace SerialAta

/-! ### What settings say -/

/-- A memory is of the size that the settings say, blank, and answers after the delay that they
say. -/
structure BusMemory.Obeys {σ : Type} [StallPolicy σ] (m : BusMemory σ) (s : MemorySettings) :
    Prop where
  width : m.width = s.wordsPerBeat.toNat
  /-- The size is the least power of two that holds the words and a beat. -/
  capacity : IsLeast {n | n.isPowerOfTwo ∧ max s.words s.wordsPerBeat.toNat ≤ n} m.capacity
  blank : ∀ addr, m.word addr = 0
  /-- A step of a bus cycle acknowledges just what was accepted the delay ago. -/
  answers : ∀ run : BusRun σ, run.start = m → ∀ t,
    ((run.reply t).ack = true ↔
      s.delay.toNat ≤ t ∧ run.accepted (t - s.delay.toNat) = true ∧
        ∀ i, t - s.delay.toNat ≤ i → i ≤ t → (run.request i).cyc = true)

/-- A drive has a blank disk of the size that the settings say, opens its link with a burst as long
as they say, and takes as many idle steps for COMRESET. -/
structure Drive.Obeys (d : Drive) (s : Settings) : Prop where
  sectors : d.disk.sectors = s.disk.sectors
  blank : ∀ i, d.disk.words.get i = 0
  /-- The link drives that many ALIGN first and none after them. -/
  opening : ∀ events, ∀ i < (d.link.run events).1.length,
    (d.link.run events).1[i]? = some (.ofPrimitive .align) ↔ i < s.link.alignCount.toNat
  /-- The handshake acknowledges the bursts of a host that idles for that long, and nothing else. -/
  handshake : ∀ events n cominit comwake elecidle,
    events[n]? = some (.listen cominit comwake elecidle) →
      (((d.handshake.after (events.take n)).listen cominit comwake elecidle).1 = true ↔
        FirstPulse events s.link.comresetIdleSteps n ∨
          SecondPulse events s.link.comresetIdleSteps n)

/-! ### The examination -/

/-- What a memory asks of its parameters. -/
theorem BusMemory.exists_new_iff {σ : Type} {p : BusParameters} {stalls : σ} :
    (∃ m, new p stalls = .ok m) ↔
      1 ≤ p.delay.toNat ∧ isBeatWidth p.wordsPerBeat = true := by
  refine ⟨fun ⟨m, hnew⟩ => ?_, fun ⟨hdelay, hwidth⟩ => ⟨_, new_of_valid hdelay hwidth stalls⟩⟩
  exact ⟨(new_ok hnew).1, (new_ok hnew).2.1⟩

/-- The two tests of the width of a beat agree. -/
theorem isBeatWidth_iff {w : UInt32} :
    isBeatWidth w = true ↔ (1 ≤ w ∧ w ≤ 16) ∧ w.toNat.isPowerOfTwo := by
  simp only [isBeatWidth, Bool.and_eq_true, decide_eq_true_eq, UInt32.le_iff_toNat_le]
  exact Iff.rfl

theorem one_le_toNat_iff {n : UInt32} : 1 ≤ n.toNat ↔ n ≠ 0 := by
  rw [Nat.one_le_iff_ne_zero, Ne, ← UInt32.toNat_zero, UInt32.toNat_inj]

namespace Settings

/-- Settings are free of defects if there is an ALIGN, a word and a sector, and the memory has
nothing against its parameters. -/
theorem defect?_eq_none_iff {σ : Type} (s : Settings) (stalls : σ) :
    s.defect? = none ↔
      1 ≤ s.link.alignCount.toNat ∧ 1 ≤ s.memory.words ∧ 1 ≤ s.disk.sectors ∧
        ∃ m, BusMemory.new s.busParameters stalls = .ok m := by
  have hpasses : ∀ {fails : Prop} [Decidable fails] {defect : Defect} {rest : Option Defect},
      (if fails then some defect else rest) = none ↔ ¬fails ∧ rest = none := by
    intro fails _ defect rest
    by_cases h : fails <;> simp [h]
  rw [BusMemory.exists_new_iff]
  simp only [defect?, hpasses, not_or, not_not, ← isBeatWidth_iff, ← ne_eq, ← one_le_toNat_iff,
    ← Nat.one_le_iff_ne_zero, busParameters]
  exact ⟨fun ⟨halign, hdelay, hwidth, hwords, hsectors, _⟩ =>
      ⟨halign, hwords, hsectors, hdelay, hwidth⟩,
    fun ⟨halign, hwords, hsectors, hdelay, hwidth⟩ =>
      ⟨halign, hdelay, hwidth, hwords, hsectors, trivial⟩⟩

/-- Only settings without a defect are accepted. -/
theorem defect?_of_ofText {read : String → Option Settings} {text : String} {s : Settings}
    (h : ofText read text = .ok s) : s.defect? = none := by
  unfold ofText at h
  split at h
  · cases h
  · split at h
    · cases h
    · cases h
      assumption

end Settings

/-! ### What is set up -/

theorem isLeast_ceilPowerOfTwo (n : Nat) :
    IsLeast {p | p.isPowerOfTwo ∧ n ≤ p} (ceilPowerOfTwo n) :=
  ⟨⟨isPowerOfTwo_ceilPowerOfTwo n, le_ceilPowerOfTwo n⟩, fun _ hp => ceilPowerOfTwo_le hp.1 hp.2⟩

theorem BusMemory.obeys_of_new {σ : Type} [StallPolicy σ] {s : Settings} {stalls : σ}
    {m : BusMemory σ} (hnew : new s.busParameters stalls = .ok m) : m.Obeys s.memory := by
  obtain ⟨hmodels, hwidth, hdelay⟩ := models_new hnew
  refine ⟨hwidth, ?_, congrFun hmodels.word, ?_⟩
  · obtain ⟨-, -, rfl⟩ := new_ok hnew
    exact isLeast_ceilPowerOfTwo _
  · rintro run rfl t
    have hstart : run.start.Models run.start.word .empty :=
      ⟨hmodels.divided, rfl, hmodels.responses⟩
    have hanswers := (run.ack_iff hstart t).1
    rwa [hdelay] at hanswers

theorem Drive.obeys_new {s : Settings} (halign : 1 ≤ s.link.alignCount.toNat) :
    (new s.linkParameters (.zeroed s.disk.sectors)).Obeys s := by
  refine ⟨rfl, fun i => Store.get_zeros _ i, fun events i hi => ?_, ?_⟩
  · have hstate := congrArg Link.state (Link.opening_zero s.linkParameters)
    have hlength : max 1 (Link.new s.linkParameters).parameters.alignCount.toNat =
        s.link.alignCount.toNat := Nat.max_eq_right halign
    have hburst := Link.align_iff_of_burst hstate.symm (Nat.zero_le _) events hi
    rwa [Nat.zero_add, hlength] at hburst
  · intro events n cominit comwake elecidle hevent
    have hn := (List.getElem?_eq_some_iff.mp hevent).1
    have hfollows := Handshake.follows (.new s.link.comresetIdleSteps) events (Nat.le_of_lt hn)
    exact hfollows.listen_iff hevent

namespace Settings

/-- Only an image can be in the way of settings without a defect that there is room for. -/
theorem exists_set_up {ρ : Type} [RandomSource ρ] {s : Settings} (hs : s.defect? = none)
    (hfits : s.Fits) (hmemory : s.memory.image = none) (hdisk : s.disk.image = none) (entropy : ρ)
    (dir : Directory) :
    ∃ m h, s.busMemory entropy dir = .ok m ∧ s.host dir = .ok h ∧ m.Obeys s.memory ∧
      h.drive.Obeys s := by
  obtain ⟨halign, -, -, m, hnew⟩ : _ ∧ _ ∧ _ ∧
      ∃ m, BusMemory.ofParameters s.busParameters entropy = .ok m :=
    (defect?_eq_none_iff s _).mp hs
  have hcapacity : 4 * m.capacity ≤ maxBytes := by
    obtain ⟨-, -, rfl⟩ := BusMemory.new_ok hnew
    exact hfits.memory
  refine ⟨m, .new (.new s.linkParameters (.zeroed s.disk.sectors)), ?_, ?_,
    BusMemory.obeys_of_new hnew, Drive.obeys_new halign⟩
  · simp only [busMemory, hnew, hmemory, if_neg (Nat.not_lt.mpr hcapacity)]
  · rw [host, if_neg (Nat.not_lt.mpr hfits.disk), hdisk]

/-- **Settings that are accepted can be set up**, whatever the reader of texts and whatever the
random numbers, provided that there is room for the disk and the memory.

An examination finds no defect just if the burst has an ALIGN, the memory a word and the disk a
sector, and the memory can be made. So a text that is accepted and names no images gives a memory
and a host with its drive, wherever they are set up, and both obey it. -/
theorem accepted_can_be_set_up {ρ : Type} [RandomSource ρ] (read : String → Option Settings)
    (entropy : ρ) :
    (∀ s : Settings, s.Fits → (s.defect? = none ↔
      1 ≤ s.link.alignCount.toNat ∧ 1 ≤ s.memory.words ∧ 1 ≤ s.disk.sectors ∧
        ∃ m, BusMemory.ofParameters s.busParameters entropy = .ok m)) ∧
    ∀ text s, ofText read text = .ok s → s.Fits → s.memory.image = none → s.disk.image = none →
      ∀ dir, ∃ m h, s.busMemory entropy dir = .ok m ∧ s.host dir = .ok h ∧
        m.Obeys s.memory ∧ h.drive.Obeys s := by
  refine ⟨fun s _ => defect?_eq_none_iff s _, fun text s htext hfits hmemory hdisk dir => ?_⟩
  exact exists_set_up (defect?_of_ofText htext) hfits hmemory hdisk entropy dir

/-- Five words in beats of two make a memory of eight, and the burst has two words. -/
theorem accepted_can_be_set_up_five_words :
    let text := "[link]\nalign_count = 2\n\n[memory]\nwords = 5\nwords_per_beat = 2\n"
    let s : Settings := { Settings.standard with
      link := { Settings.standard.link with alignCount := 2 }
      memory := { Settings.standard.memory with words := 5, wordsPerBeat := 2 } }
    let entropy := Keystream.ofSeed 1
    ofText ofToml? text = .ok s ∧ s.Fits ∧
      ∃ m h, s.busMemory entropy .empty = .ok m ∧ s.host .empty = .ok h ∧
        m.capacity = 8 ∧ h.drive.disk.sectors = 2048 ∧
        ∀ events, ∀ i < (h.drive.link.run events).1.length,
          (h.drive.link.run events).1[i]? = some (.ofPrimitive .align) ↔ i < 2 := by
  intro text s entropy
  have htext : ofText ofToml? text = .ok s := eq_ok_of_toOption (by decide +kernel)
  have hfits : s.Fits := ⟨by decide, by decide⟩
  obtain ⟨-, hsetUp⟩ := accepted_can_be_set_up ofToml? entropy
  obtain ⟨m, h, hm, hh, hmemory, hdrive⟩ := hsetUp text s htext hfits rfl rfl .empty
  exact ⟨htext, hfits, m, h, hm, hh, hmemory.capacity.unique (isLeast_ceilPowerOfTwo 5),
    hdrive.sectors, hdrive.opening⟩

end Settings

end SerialAta
