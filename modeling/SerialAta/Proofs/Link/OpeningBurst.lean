import SerialAta.Proofs.Link.Resynchronisation
/-!
# SerialAta.Proofs.Link.OpeningBurst

**A link opens with one burst of ALIGN** (`Link.opens_with_one_burst`), as long as its settings say
and one word long at least.

While the burst lasts, a step looks at nothing but the count of the words that are out, so the link
is where it started but for that count and for the frames that have been queued (`run_burst`).
`Link.opening` is this family of links for one that started new. When the burst is over, no state
leads back to it (`align_not_mem_run`).
-/

namespace SerialAta

theorem LinkState.sendAlign_of_driven {state : LinkState} (h : state.driven = some .align) :
    ∃ sent, state = .sendAlign sent := by
  cases state with
  | sendAlign sent => exact ⟨sent, rfl⟩
  | _ => cases h

namespace Link

variable {l : Link} {parameters : LinkParameters} {n : Nat}

/-! ### The burst -/

/-- A new link after `n` steps, as far as the end of its opening burst. -/
def opening (parameters : LinkParameters) (n : Nat) : Link :=
  { new parameters with
    state := if n < max 1 parameters.alignCount.toNat then .sendAlign (.ofNat n) else .idle }

/-- A step of the burst counts on, whatever the host drives and whatever is queued. -/
theorem step_burst (hs : l.state = (opening l.parameters n).state)
    (hn : n < max 1 l.parameters.alignCount.toNat) (host : PhyWord) :
    l.step host =
      (.ofPrimitive .align, { l with state := (opening l.parameters (n + 1)).state }) := by
  have hlt := l.parameters.alignCount.toNat_lt
  have hstate : l.state = .sendAlign (.ofNat n) := hs.trans (if_pos hn)
  have hsize : UInt32.size = 4294967296 := rfl
  have hcount : (UInt32.ofNat (n + 1)).toNat = n + 1 := UInt32.toNat_ofNat_of_lt' (by omega)
  have hnext : UInt32.ofNat n + 1 = .ofNat (n + 1) := (UInt32.ofNat_add n 1).symm
  have hlast : l.parameters.alignCount ≤ .ofNat (n + 1) ↔
      ¬n + 1 < max 1 l.parameters.alignCount.toNat := by
    rw [UInt32.le_iff_toNat_le, hcount]
    omega
  rw [step_sendAlign hstate, hnext]
  simp only [hlast, opening, ite_not]

theorem step_opening (hn : n < max 1 parameters.alignCount.toNat) (host : PhyWord) :
    (opening parameters n).step host = (.ofPrimitive .align, opening parameters (n + 1)) :=
  step_burst rfl hn host

theorem after_opening {hosts : List PhyWord}
    (hn : n + hosts.length ≤ max 1 parameters.alignCount.toNat) :
    (opening parameters n).after hosts = opening parameters (n + hosts.length) := by
  induction hosts generalizing n with
  | nil => rfl
  | cons host hosts ih =>
      rw [List.length_cons] at hn
      rw [after_cons, step_opening (by omega), ih (by omega), List.length_cons]
      congr 1
      omega

theorem opening_zero (parameters : LinkParameters) : opening parameters 0 = new parameters := by
  have hpos : 0 < max 1 parameters.alignCount.toNat := by omega
  rw [opening, if_pos hpos]
  rfl

theorem state_opening_end (parameters : LinkParameters) :
    (opening parameters (max 1 parameters.alignCount.toNat)).state = .idle :=
  if_neg (Nat.lt_irrefl _)

/-! ### Runs -/

/-- A link that is not in its burst does not get into it again. -/
theorem align_not_mem_run (hs : ∀ sent, l.state ≠ .sendAlign sent) (events : List LinkEvent) :
    .ofPrimitive .align ∉ (l.run events).1 := by
  induction events generalizing l with
  | nil => exact List.not_mem_nil
  | cons event events ih =>
      cases event with
      | enqueue frame => exact ih (l := l.enqueue frame) hs
      | step host =>
          rw [run_step, List.mem_cons, not_or]
          refine ⟨fun hword => ?_, ih fun sent hsent => ?_⟩
          · have hcarries : (l.step host).1.carries .align = true := hword ▸ rfl
            rcases driven_of_carries hcarries with hdriven | ⟨-, hsof, -⟩
            · obtain ⟨sent, hsent⟩ := LinkState.sendAlign_of_driven hdriven
              exact hs sent hsent
            · cases hsof
          · obtain ⟨seen, -, hnext⟩ := step_state l host
            obtain ⟨before, hbefore⟩ := LinkState.sendAlign_of_next (hnext.symm.trans hsent)
            exact hs before hbefore

/-- After `n` steps of the burst the rest of it comes first, and ALIGN never again. -/
theorem align_iff_of_burst (hs : l.state = (opening l.parameters n).state)
    (hn : n ≤ max 1 l.parameters.alignCount.toNat) (events : List LinkEvent) {i : Nat}
    (hi : i < (l.run events).1.length) :
    (l.run events).1[i]? = some (.ofPrimitive .align) ↔
      n + i < max 1 l.parameters.alignCount.toNat := by
  induction events generalizing l n i with
  | nil => exact absurd hi (Nat.not_lt_zero i)
  | cons event events ih =>
      cases event with
      | enqueue frame => exact ih (l := l.enqueue frame) hs hn hi
      | step host =>
          rcases Nat.lt_or_eq_of_le hn with hmore | rfl
          · rw [run_step, step_burst hs hmore] at hi ⊢
            cases i with
            | zero => exact ⟨fun _ => hmore, fun _ => rfl⟩
            | succ i =>
                have hcount : n + (i + 1) = n + 1 + i := by omega
                rw [List.getElem?_cons_succ, hcount]
                exact ih (l := { l with state := (opening l.parameters (n + 1)).state }) rfl hmore
                  (Nat.lt_of_succ_lt_succ hi)
          · -- The burst is over.
            rw [state_opening_end] at hs
            have hover := align_not_mem_run (fun sent hsent => by rw [hs] at hsent; cases hsent)
              (.step host :: events)
            refine ⟨fun hword => absurd (List.mem_of_getElem? hword) hover, fun hlt => ?_⟩
            exact absurd hlt (Nat.not_lt.mpr (Nat.le_add_right ..))

/-- As long as the burst lasts, nothing happens to the link but that its steps are counted and
frames are queued. -/
theorem run_burst (hs : l.state = (opening l.parameters n).state) (events : List LinkEvent)
    (hn : n + (l.run events).1.length ≤ max 1 l.parameters.alignCount.toNat) :
    (l.run events).2 = { l with
      state := (opening l.parameters (n + (l.run events).1.length)).state
      outbound := l.outbound ++ LinkEvent.queued events } := by
  induction events generalizing l n with
  | nil =>
      show l = { l with state := (opening l.parameters n).state, outbound := l.outbound ++ [] }
      rw [List.append_nil, ← hs]
  | cons event events ih =>
      cases event with
      | enqueue frame =>
          rw [run_enqueue, ih (l := l.enqueue frame) hs hn]
          simp only [enqueue, LinkEvent.queued, List.append_assoc, List.singleton_append]
      | step host =>
          simp only [run_step, List.length_cons] at hn ⊢
          rw [step_burst hs (by omega)] at hn ⊢
          have hnext := ih (l := { l with state := (opening l.parameters (n + 1)).state }) rfl
            (by dsimp only at hn ⊢; omega)
          rw [hnext, Nat.add_assoc, Nat.add_comm 1]
          rfl

/-! ### New links and links that have been reset -/

/-- The link is new, or has just been reset, whatever has happened to it before. -/
def Fresh (l : Link) : Prop :=
  (∃ parameters, l = new parameters) ∨ ∃ before : Link, l = before.reset

theorem Fresh.eq_new (h : l.Fresh) : l = new l.parameters := by
  rcases h with ⟨parameters, rfl⟩ | ⟨before, rfl⟩
  · rfl
  · rfl

/-- **A link opens with one burst of ALIGN.** In a run of a link that is new or has just been reset,
whatever the host drives and whatever frames are queued, the steps that drive ALIGN are the first
ones, as many as the settings say and one at least. As long as the burst lasts, the link is as it
was at the start but for the count of the steps and the frames that have been queued, all of which
wait. The count stays below the length of the burst, so it does not overflow. -/
theorem opens_with_one_burst (hfresh : l.Fresh) (events : List LinkEvent) :
    let burst := max 1 l.parameters.alignCount.toNat
    let words := (l.run events).1
    let l' := (l.run events).2
    (∀ i < words.length, words[i]? = some (.ofPrimitive .align) ↔ i < burst) ∧
    (words.length ≤ burst → l' = { l with
      state := if words.length < burst then .sendAlign (.ofNat words.length) else .idle
      outbound := LinkEvent.queued events }) ∧
    ∀ sent, l'.state = .sendAlign sent →
      sent.toNat < burst ∧ (sent + 1).toNat = sent.toNat + 1 := by
  intro burst words l'
  have hnew := hfresh.eq_new
  have hs : l.state = (opening l.parameters 0).state := by rw [opening_zero, ← hnew]
  have houtbound : l.outbound = [] := by rw [hnew]; rfl
  refine ⟨fun i hi => ?_, fun hlength => ?_, fun sent hsent => ?_⟩
  · rw [align_iff_of_burst hs (Nat.zero_le _) events hi, Nat.zero_add]
  · have hrun := run_burst hs events (by rwa [Nat.zero_add])
    rw [houtbound, List.nil_append, Nat.zero_add] at hrun
    exact hrun
  · have hburst : l'.InBurst := run_induction (fun _ host h => h.step host) (fun _ _ h => h)
      (hnew ▸ inBurst_new l.parameters) events
    have hlt := hburst sent hsent
    refine ⟨?_, toNat_add_one hlt⟩
    rwa [run_parameters] at hlt

/-- A link that is reset in the middle of a burst of three words opens with three words again. It
does not heed the frame that the host announces, nor send the one that is queued. -/
theorem opens_with_one_burst_three :
    let begun := (new { LinkParameters.standard with alignCount := 3 }).run
      [.enqueue [1], .step (.ofPrimitive .sync)]
    let l := begun.2.reset
    let events : List LinkEvent :=
      [.step (.ofPrimitive .xRdy), .enqueue [0x39], .step (.ofPrimitive .sof)]
    let all := (l.run (events ++ [.step (.ofPrimitive .xRdy), .step (.ofPrimitive .xRdy)])).1
    l.Fresh ∧ (l.run events).2.state = .sendAlign 2 ∧ (l.run events).2.outbound = [[0x39]] ∧
      all[2]? = some (.ofPrimitive .align) ∧ all[3]? ≠ some (.ofPrimitive .align) := by
  intro begun l events all
  have hfresh : l.Fresh := .inr ⟨begun.2, rfl⟩
  obtain ⟨hwords, -, -⟩ := opens_with_one_burst hfresh
    (events ++ [.step (.ofPrimitive .xRdy), .step (.ofPrimitive .xRdy)])
  obtain ⟨-, hlink, hcount⟩ := opens_with_one_burst hfresh events
  have hstate : (l.run events).2.state = .sendAlign 2 :=
    (congrArg Link.state (hlink (by decide))).trans rfl
  have hbelow : (2 : UInt32).toNat < 3 := (hcount 2 hstate).1
  refine ⟨hfresh, hstate, ?_, ?_, ?_⟩
  · exact congrArg Link.outbound (hlink (by decide))
  · exact (hwords 2 (by decide)).mpr hbelow
  · exact fun h => absurd ((hwords 3 (by decide)).mp h) (by decide)

end Link

end SerialAta
