import SerialAta.Proofs.Link.Transmission
/-!
# SerialAta.Proofs.Link.Resynchronisation

**The link has no trap state** (`Link.resynchronises`). A host that has lost track of it drives
SYNC for a while, then XRDY, SOF, WTRM and SYNC, and the link is idle.

SYNC alone brings the link to rest: it finishes what it does by itself, and waits for the host in
one of four states. How long this takes at most is `Link.settleTime`, which every SYNC lowers.
From each of the four states the closing words lead through a reception that is broken off.
No frame is lost on the way but one whose transmission has been agreed on before
(`Link.staying`), and none is taken in but one that had ended before.
-/

namespace SerialAta

/-- The end of a frame is reached only by the primitive for it. -/
theorem LinkState.next_ne_rcvEof {state : LinkState} {seen : Observation}
    (h : seen.host ≠ some .eof) : state.next seen ≠ .rcvEof := by
  intro hnext
  cases state with
  | rcvData =>
      simp only [next] at hnext
      split at hnext
      · next heof => exact h heof
      · cases hnext
      · cases hnext
  | _ =>
      simp only [next] at hnext
      repeat' split at hnext
      all_goals cases hnext

/-- The opening burst is not taken up again. -/
theorem LinkState.sendAlign_of_next {state : LinkState} {seen : Observation} {sent : UInt32}
    (h : state.next seen = .sendAlign sent) : ∃ before, state = .sendAlign before := by
  cases state with
  | sendAlign before => exact ⟨before, rfl⟩
  | _ =>
      simp only [next] at h
      repeat' split at h
      all_goals cases h

/-- The transmission of a frame has been agreed on, and its end is still to come. -/
def LinkState.isSending : LinkState → Bool
  | sendData | sendEof => true
  | _ => false

/-- Only a host that is ready for a frame starts a transmission. -/
theorem LinkState.isSending_next {state : LinkState} {seen : Observation}
    (hs : state.isSending = false) (h : seen.host ≠ some .rRdy) :
    (state.next seen).isSending = false := by
  cases state with
  | sendData => cases hs
  | sendEof => cases hs
  | sendChkRdy =>
      simp only [next]
      split
      · next hready => exact absurd hready h
      · rfl
      · rfl
  | _ =>
      simp only [next]
      repeat' split
      all_goals rfl

/-- The state is one that SYNC does not bring the link out of. -/
def LinkState.isResting : LinkState → Bool
  | idle | sendChkRdy | rcvChkRdy | rcvData => true
  | _ => false

theorem LinkState.isResting_next {state : LinkState} {seen : Observation}
    (hs : state.isResting = true) (h : seen.host = some .sync) :
    (state.next seen).isResting = true := by
  cases state with
  | idle =>
      simp only [next, h]
      rw [if_neg (by decide)]
      split <;> rfl
  | sendChkRdy => simp only [next, h]; rfl
  | rcvChkRdy => simp only [next, h]; rfl
  | rcvData => simp only [next, h]; rfl
  | _ => cases hs

/-- From every state of rest, XRDY, SOF, WTRM and SYNC lead to `idle`, through a reception that is
broken off. -/
theorem LinkState.next_closing {state : LinkState} (hs : state.isResting = true)
    {seen₁ seen₂ seen₃ seen₄ : Observation} (h₁ : seen₁.host = some .xRdy)
    (h₂ : seen₂.host = some .sof) (h₃ : seen₃.host = some .wtrm) (h₄ : seen₄.host = some .sync) :
    (((state.next seen₁).next seen₂).next seen₃).next seen₄ = .idle := by
  cases state with
  | idle => simp [next, h₁, h₂, h₃, h₄]
  | sendChkRdy => simp [next, h₁, h₂, h₃, h₄]
  | rcvChkRdy => simp [next, h₁, h₂, h₃, h₄]
  | rcvData => simp [next, h₁, h₂, h₃, h₄]
  | _ => cases hs

namespace Link

variable {l : Link}

/-! ### What holds of every link -/

/-- What a new link has, and steps and queued frames keep, every run leads to. -/
theorem run_induction {P : Link → Prop} (hstep : ∀ l host, P l → P (l.step host).2)
    (hqueue : ∀ l frame, P l → P (l.enqueue frame)) (h : P l) (events : List LinkEvent) :
    P (l.run events).2 := by
  induction events generalizing l with
  | nil => exact h
  | cons event events ih =>
      cases event with
      | step host => exact ih (hstep l host h)
      | enqueue frame => exact ih (hqueue l frame h)

theorem run_parameters (l : Link) (events : List LinkEvent) :
    (l.run events).2.parameters = l.parameters :=
  run_induction (P := fun l' => l'.parameters = l.parameters)
    (fun l' host h => (step_parameters l' host).trans h) (fun _ _ h => h) rfl events

/-- The link is not beyond the end of its opening burst, which has one word at least. -/
def InBurst (l : Link) : Prop :=
  ∀ sent, l.state = .sendAlign sent → sent.toNat < max 1 l.parameters.alignCount.toNat

theorem inBurst_new (parameters : LinkParameters) : (new parameters).InBurst := by
  intro sent h
  cases h
  exact Nat.lt_of_lt_of_le Nat.one_pos (Nat.le_max_left ..)

/-- The count of the burst does not come to its limit. -/
theorem toNat_add_one {sent count : UInt32} (h : sent.toNat < max 1 count.toNat) :
    (sent + 1).toNat = sent.toNat + 1 := by
  have hlt := count.toNat_lt
  rw [UInt32.toNat_add, UInt32.toNat_one, Nat.mod_eq_of_lt (by omega)]

theorem InBurst.step (h : l.InBurst) (host : PhyWord) : (l.step host).2.InBurst := by
  intro sent hsent
  obtain ⟨seen, -, hnext⟩ := step_state l host
  obtain ⟨before, hs⟩ := LinkState.sendAlign_of_next (hnext.symm.trans hsent)
  have hbefore := toNat_add_one (h before hs)
  rw [step_parameters]
  rw [step_sendAlign hs] at hsent
  dsimp only at hsent
  split at hsent
  · cases hsent
  · next hlt =>
    obtain rfl := LinkState.sendAlign.inj hsent
    rw [UInt32.not_le, UInt32.lt_iff_toNat_lt] at hlt
    omega

/-! ### What stays in the queue -/

/-- The frames that wait: all that are queued but the one whose transmission has been agreed
on. -/
def staying (l : Link) : List Frame :=
  if l.state.isSending then l.outbound.tail else l.outbound

/-- At most one frame does not stay, and only once its transmission has been agreed on. -/
theorem outbound_eq (l : Link) :
    ∃ leaving, leaving.length ≤ 1 ∧
      (leaving ≠ [] → l.state = .sendData ∨ l.state = .sendEof) ∧
      l.outbound = leaving ++ l.staying := by
  unfold staying
  cases hs : l.state.isSending with
  | false => exact ⟨[], Nat.zero_le _, fun h => absurd rfl h, rfl⟩
  | true =>
      refine ⟨l.outbound.take 1, List.length_take_le .., fun _ => ?_, ?_⟩
      · cases h : l.state with
        | sendData => exact .inl rfl
        | sendEof => exact .inr rfl
        | _ => rw [h] at hs; cases hs
      · rw [if_pos rfl, ← List.drop_one, List.take_append_drop]

/-- Unless the host is ready for a frame, what stays in the queue stays there. -/
theorem step_staying {host : PhyWord} (h : host.asPrimitive? ≠ some .rRdy) :
    (l.step host).2.staying = l.staying := by
  unfold staying
  rw [step_outbound]
  cases hs : l.state.isSending with
  | false =>
      obtain ⟨seen, hseen, hnext⟩ := step_state l host
      have hne : l.state ≠ .sendEof := fun heq => by rw [heq] at hs; cases hs
      rw [hnext, LinkState.isSending_next hs (hseen ▸ h), if_neg hne]
  | true =>
      cases h : l.state with
      | sendData =>
          have hsends : (l.step host).2.state.isSending = true := by
            rw [step_sendData h]
            cases l.transmit.2.1 <;> rfl
          rw [hsends]
          rfl
      | sendEof =>
          rw [step_sendEof h]
          rfl
      | _ => rw [h] at hs; cases hs

theorem after_staying {words : List PhyWord} (h : ∀ w ∈ words, w.asPrimitive? ≠ some .rRdy) :
    (l.after words).staying = l.staying := by
  induction words generalizing l with
  | nil => rfl
  | cons word words ih =>
      rw [after_cons, ih fun w hw => h w (List.mem_cons_of_mem _ hw),
        step_staying (h word (List.mem_cons_self ..))]

/-- While the host ends no frame, none is taken in. -/
theorem after_received {words : List PhyWord} (hs : l.state ≠ .rcvEof)
    (h : ∀ w ∈ words, w.asPrimitive? ≠ some .eof) : (l.after words).received = l.received := by
  induction words generalizing l with
  | nil => rfl
  | cons word words ih =>
      obtain ⟨seen, hseen, hnext⟩ := step_state l word
      have hs' : (l.step word).2.state ≠ .rcvEof := by
        rw [hnext]
        exact LinkState.next_ne_rcvEof (hseen ▸ h word (List.mem_cons_self ..))
      rw [after_cons, ih hs' fun w hw => h w (List.mem_cons_of_mem _ hw),
        step_received_of_ne_rcvEof hs]

theorem after_outbound_suffix (l : Link) (words : List PhyWord) :
    (l.after words).outbound <:+ l.outbound := by
  induction words generalizing l with
  | nil => exact List.suffix_rfl
  | cons word words ih =>
      refine (ih _).trans ?_
      rw [step_outbound]
      split
      · exact List.tail_suffix _
      · exact List.suffix_rfl

/-- While the host is not ready for a frame, at most one frame leaves the queue, and only if its
transmission has been agreed on before. -/
theorem after_outbound {words : List PhyWord} (h : ∀ w ∈ words, w.asPrimitive? ≠ some .rRdy) :
    ∃ sent, sent.length ≤ 1 ∧ (sent ≠ [] → l.state = .sendData ∨ l.state = .sendEof) ∧
      l.outbound = sent ++ (l.after words).outbound := by
  obtain ⟨leaving, hone, hstate, hall⟩ := l.outbound_eq
  obtain ⟨still, -, -, hlast⟩ := (l.after words).outbound_eq
  obtain ⟨sent, hsent⟩ := after_outbound_suffix l words
  have hlength : sent.length + still.length = leaving.length := by
    have hsum := congrArg List.length (hsent.trans hall)
    rw [hlast, after_staying h] at hsum
    simp only [List.length_append] at hsum
    omega
  refine ⟨sent, by omega, fun hne => hstate fun hnone => ?_, hsent.symm⟩
  rw [hnone, List.length_nil, Nat.add_eq_zero_iff] at hlength
  exact hne (List.length_eq_zero_iff.mp hlength.1)

/-! ### How SYNC brings the link to rest -/

/-- The steps of SYNC after which the link is at rest. -/
def settleTime (l : Link) : Nat :=
  match l.state with
  | .sendAlign sent => max 1 l.parameters.alignCount.toNat - sent.toNat
  | .sendData =>
    match l.unsent with
    | none => (l.outbound.headD []).length + 4
    | some todo => todo.length + 3
  | .sendEof | .rcvEof => 2
  | .wait | .goodEnd | .badEnd => 1
  | .idle | .sendChkRdy | .rcvChkRdy | .rcvData => 0

theorem settleTime_of_resting (h : l.state.isResting = true) : l.settleTime = 0 := by
  unfold settleTime
  cases hs : l.state with
  | idle => rfl
  | sendChkRdy => rfl
  | rcvChkRdy => rfl
  | rcvData => rfl
  | _ => rw [hs] at h; cases h

/-- Each SYNC brings the link nearer to rest. -/
theorem settleTime_step (hburst : l.InBurst) (h : l.state.isResting = false) :
    (l.step (.ofPrimitive .sync)).2.settleTime < l.settleTime := by
  cases hs : l.state with
  | idle => rw [hs] at h; cases h
  | sendChkRdy => rw [hs] at h; cases h
  | rcvChkRdy => rw [hs] at h; cases h
  | rcvData => rw [hs] at h; cases h
  | sendAlign sent =>
      have hlt := hburst sent hs
      have hnext := toNat_add_one hlt
      rw [step_sendAlign hs]
      by_cases hlast : l.parameters.alignCount ≤ sent + 1
      · simp only [settleTime, hs, if_pos hlast]
        omega
      · simp only [settleTime, hs, if_neg hlast]
        omega
  | sendData =>
      rw [step_sendData hs]
      cases ho : l.outbound with
      | nil => cases hu : l.unsent <;> simp [settleTime, transmit, hs, ho, hu]
      | cons frame rest =>
          cases hu : l.unsent with
          | none => simp [settleTime, transmit, hs, ho, hu]
          | some todo => cases todo <;> simp [settleTime, transmit, hs, ho, hu]
  | sendEof => simp [step_sendEof hs, settleTime, hs]
  | wait => simp [step_wait hs, settleTime, hs]
  | rcvEof =>
      rw [step_rcvEof hs]
      cases hi : l.endReceive.1 <;> simp [settleTime, hs]
  | goodEnd => simp [step_goodEnd hs, settleTime, hs]
  | badEnd => simp [step_badEnd hs, settleTime, hs]

theorem isResting_after {n : Nat} (hburst : l.InBurst) (hn : l.settleTime ≤ n) :
    (l.after (List.replicate n (.ofPrimitive .sync))).state.isResting = true := by
  induction n generalizing l with
  | zero =>
      cases h : l.state.isResting with
      | true => exact h
      | false =>
          have hlt := settleTime_step hburst h
          omega
  | succ n ih =>
      refine ih (hburst.step _) ?_
      show (l.step (.ofPrimitive .sync)).2.settleTime ≤ n
      cases h : l.state.isResting with
      | true =>
          obtain ⟨seen, hseen, hnext⟩ := step_state l (.ofPrimitive .sync)
          rw [PhyWord.asPrimitive?_ofPrimitive] at hseen
          rw [settleTime_of_resting (hnext ▸ LinkState.isResting_next h hseen)]
          exact Nat.zero_le n
      | false =>
          have hlt := settleTime_step hburst h
          omega

/-- The time is bounded by the burst and by what is left of the frame in flight. -/
theorem InFlight.settleTime_le {cut : List PhyWord} (h : l.InFlight cut) :
    l.settleTime ≤ l.parameters.alignCount.toNat + (l.outbound.headD []).length + 4 := by
  unfold settleTime
  cases hs : l.state with
  | sendData =>
      cases h with
      | quiet hq => rw [Undecided, hs] at hq; exact hq.elim
      | trailer hs' => rw [hs] at hs'; cases hs'
      | agreed _ _ hu =>
          simp only [hu]
          omega
      | words _ ho hu =>
          simp only [hu, ho, List.headD_cons, List.length_append]
          omega
  | _ => dsimp only; omega

/-! ### How the host gets the link back -/

/-- The words that end the resynchronisation. -/
def closingWords : List PhyWord :=
  [.ofPrimitive .xRdy, .ofPrimitive .sof, .ofPrimitive .wtrm, .ofPrimitive .sync]

theorem state_after_closing (h : l.state.isResting = true) :
    (l.after closingWords).state = .idle := by
  obtain ⟨seen₁, hseen₁, h₁⟩ := step_state l (.ofPrimitive .xRdy)
  obtain ⟨seen₂, hseen₂, h₂⟩ := step_state (l.step (.ofPrimitive .xRdy)).2 (.ofPrimitive .sof)
  obtain ⟨seen₃, hseen₃, h₃⟩ := step_state _ (.ofPrimitive .wtrm)
  obtain ⟨seen₄, hseen₄, h₄⟩ := step_state _ (.ofPrimitive .sync)
  simp only [PhyWord.asPrimitive?_ofPrimitive] at hseen₁ hseen₂ hseen₃ hseen₄
  rw [closingWords, after_cons, after_cons, after_cons, after_cons, after_nil, h₄, h₃, h₂, h₁]
  exact LinkState.next_closing h hseen₁ hseen₂ hseen₃ hseen₄

/-- **The link has no trap state.** From whatever a link has come to, it is idle after SYNC for
long enough, at most as long as the opening burst and the frame in flight and four steps, followed
by XRDY, SOF, WTRM and SYNC. On the way at most one frame is taken in, with the first step and
only if the frame had ended before, and at most one frame leaves the queue, only if its
transmission had been agreed on before; all others stay in order. -/
theorem resynchronises (parameters : LinkParameters) (events : List LinkEvent) :
    let l := ((new parameters).run events).2
    ∃ bound, bound ≤ parameters.alignCount.toNat + (l.outbound.headD []).length + 4 ∧
      ∀ n, bound ≤ n →
        let words := List.replicate n (.ofPrimitive .sync) ++ closingWords
        (l.after words).state = .idle ∧
        (∃ taken, taken.length ≤ 1 ∧ (taken ≠ [] → l.state = .rcvEof) ∧
          ∀ k, (l.after (words.take (k + 1))).received = l.received ++ taken) ∧
        ∀ k, ∃ sent, sent.length ≤ 1 ∧
          (sent ≠ [] → l.state = .sendData ∨ l.state = .sendEof) ∧
          l.outbound = sent ++ (l.after (words.take k)).outbound := by
  intro l
  obtain ⟨_, -, _, _, -, -, hcut⟩ := (hasDriven_new parameters).run events
  have hburst : l.InBurst := run_induction (fun _ host h => h.step host) (fun _ _ h => h)
    (inBurst_new parameters) events
  have hbound := hcut.settleTime_le
  rw [run_parameters] at hbound
  refine ⟨l.settleTime, hbound, ?_⟩
  intro n hn words
  have hwords : ∀ w ∈ words, w.asPrimitive? ≠ some .rRdy ∧ w.asPrimitive? ≠ some .eof := by
    intro w hw
    rcases List.mem_append.mp hw with hw | hw
    · rw [List.eq_of_mem_replicate hw]
      decide
    · simp only [closingWords, List.mem_cons, List.not_mem_nil, or_false] at hw
      rcases hw with rfl | rfl | rfl | rfl <;> decide
  refine ⟨?_, ?_, fun k => after_outbound fun w hw => (hwords w (List.mem_of_mem_take hw)).1⟩
  · rw [after_append]
    exact state_after_closing (isResting_after hburst hn)
  · obtain ⟨first, rest, hfirst⟩ : ∃ first rest, words = first :: rest :=
      List.exists_cons_of_ne_nil (by simp [words, closingWords])
    rw [hfirst] at hwords ⊢
    refine ⟨(l.accepted? first).toList, ?_, fun hne => ?_, fun k => ?_⟩
    · cases l.accepted? first <;> simp
    · obtain ⟨frame, hframe⟩ := List.exists_mem_of_ne_nil _ hne
      exact rcvEof_of_accepted? (Option.mem_toList.mp hframe)
    · obtain ⟨seen, hseen, hnext⟩ := step_state l first
      have hs : (l.step first).2.state ≠ .rcvEof := by
        rw [hnext]
        exact LinkState.next_ne_rcvEof (hseen ▸ (hwords first (List.mem_cons_self ..)).2)
      rw [List.take_succ_cons, after_cons, ← step_received]
      refine after_received hs fun w hw => ?_
      exact (hwords w (List.mem_cons_of_mem _ (List.mem_of_mem_take hw))).2

end Link

end SerialAta
