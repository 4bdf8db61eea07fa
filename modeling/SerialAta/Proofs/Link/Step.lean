import SerialAta.Link.Basic
/-!
# SerialAta.Proofs.Link.Step

**One step of the link**, an equation per state.

`Link.step` does the work of the state, then moves on by what it has seen. The equations
here put the two together: what is driven, and the link afterwards. Everything about
runs of the link is derived from them, so nothing else unfolds the step.

One fact holds in every state: the frames that came intact change only where the link enters
`goodEnd`, by the frame that is accepted there (`step_received`).
-/

namespace SerialAta

/-- The state `goodEnd` is entered from the end of a frame, and kept. -/
theorem LinkState.eq_of_next_goodEnd {state : LinkState} {seen : Observation}
    (h : state.next seen = .goodEnd) : state = .goodEnd ∨ state = .rcvEof := by
  cases state with
  | goodEnd => exact .inl rfl
  | rcvEof => exact .inr rfl
  | _ =>
      simp only [next] at h
      repeat' split at h
      all_goals cases h

theorem LinkState.rcvChkRdy_of_driven {state : LinkState} (h : state.driven = some .rRdy) :
    state = .rcvChkRdy := by
  cases state with
  | rcvChkRdy => rfl
  | _ => cases h

namespace Link

variable {l : Link}

/-! ### Without a frame -/

theorem step_sendAlign {sent : UInt32} (h : l.state = .sendAlign sent) (host : PhyWord) :
    l.step host = (.ofPrimitive .align,
      { l with state :=
          if l.parameters.alignCount ≤ sent + 1 then .idle else .sendAlign (sent + 1) }) := by
  simp only [step, act, h, LinkState.next]

theorem step_idle (h : l.state = .idle) (host : PhyWord) :
    l.step host = (.ofPrimitive .sync,
      { l with
        coder := .initial
        state :=
          if host.asPrimitive? = some .xRdy then .rcvChkRdy
          else if l.outbound.isEmpty then .idle else .sendChkRdy }) := by
  simp only [step, act, h, LinkState.next]
  cases l.outbound <;> simp

/-! ### Sending

The work of transmission changes coder and position in the frame, nothing else. -/

@[simp] theorem transmit_state (l : Link) : l.transmit.2.2.state = l.state := by
  unfold transmit
  repeat' split
  all_goals rfl

@[simp] theorem transmit_received (l : Link) : l.transmit.2.2.received = l.received := by
  unfold transmit
  repeat' split
  all_goals rfl

@[simp] theorem transmit_parameters (l : Link) : l.transmit.2.2.parameters = l.parameters := by
  unfold transmit
  repeat' split
  all_goals rfl

@[simp] theorem transmit_outbound (l : Link) : l.transmit.2.2.outbound = l.outbound := by
  unfold transmit
  repeat' split
  all_goals rfl

theorem step_sendChkRdy (h : l.state = .sendChkRdy) (host : PhyWord) :
    l.step host = (.ofPrimitive .xRdy,
      { l with state :=
          if host.asPrimitive? = some .rRdy then .sendData
          else if host.asPrimitive? = some .xRdy then .rcvChkRdy else .sendChkRdy }) := by
  simp only [step, act, h, LinkState.next]
  cases host.asPrimitive? with
  | none => simp
  | some p => cases p <;> simp

theorem step_sendData (h : l.state = .sendData) (host : PhyWord) :
    l.step host = (l.transmit.1,
      { l.transmit.2.2 with state := if l.transmit.2.1 then .sendEof else .sendData }) := by
  simp only [step, act, h, transmit_state, LinkState.next]

/-- The start of the frame at the head of the queue. -/
theorem step_sendData_start (h : l.state = .sendData) {frame : Frame} {rest : List Frame}
    (ho : l.outbound = frame :: rest) (hu : l.unsent = none) (host : PhyWord) :
    l.step host = (.ofPrimitive .sof, { l with coder := .initial, unsent := some frame }) := by
  simp [step_sendData h, transmit, ho, hu, h]

/-- The next word of the frame in flight. -/
theorem step_sendData_word (h : l.state = .sendData) {frame : Frame} {rest : List Frame}
    (ho : l.outbound = frame :: rest) {word : UInt32} {todo : List UInt32}
    (hu : l.unsent = some (word :: todo)) (host : PhyWord) :
    l.step host = (.ofData (l.coder.putWord word).1,
      { l with coder := (l.coder.putWord word).2, unsent := some todo }) := by
  simp [step_sendData h, transmit, ho, hu, h]

/-- The checksum of the frame in flight. -/
theorem step_sendData_crc (h : l.state = .sendData) {frame : Frame} {rest : List Frame}
    (ho : l.outbound = frame :: rest) (hu : l.unsent = some []) (host : PhyWord) :
    l.step host = (.ofData l.coder.putCrc.1,
      { l with coder := l.coder.putCrc.2, state := .sendEof }) := by
  simp [step_sendData h, transmit, ho, hu, h]

theorem step_sendEof (h : l.state = .sendEof) (host : PhyWord) :
    l.step host = (.ofPrimitive .eof,
      { l with outbound := l.outbound.tail, unsent := none, state := .wait }) := by
  simp only [step, act, h, LinkState.next]

theorem step_wait (h : l.state = .wait) (host : PhyWord) :
    l.step host = (.ofPrimitive .wtrm,
      { l with state :=
          if host.asPrimitive? = some .sync ∨ host.asPrimitive? = some .ok ∨
            host.asPrimitive? = some .err then .idle else .wait }) := by
  simp only [step, act, h, LinkState.next]
  cases host.asPrimitive? with
  | none => simp
  | some p => cases p <;> simp

/-! ### Receiving

The work of reception leaves all but coder, incoming frame and received frames alone. -/

@[simp] theorem receive_state (l : Link) (wire : UInt32) : (l.receive wire).state = l.state := rfl

theorem endReceive_of_intact (h : l.reception.isIntact l.coder.crc = true) :
    l.endReceive = (true, { l with
      received := l.received ++ [l.reception.words.toList]
      reception := { l.reception with words := #[] } }) :=
  if_pos h

theorem endReceive_of_damaged (h : l.reception.isIntact l.coder.crc = false) :
    l.endReceive = (false, l) :=
  if_neg (Bool.eq_false_iff.mp h)

@[simp] theorem endReceive_state (l : Link) : l.endReceive.2.state = l.state := by
  unfold endReceive
  split <;> rfl

@[simp] theorem endReceive_parameters (l : Link) : l.endReceive.2.parameters = l.parameters := by
  unfold endReceive
  split <;> rfl

@[simp] theorem endReceive_outbound (l : Link) : l.endReceive.2.outbound = l.outbound := by
  unfold endReceive
  split <;> rfl

theorem step_rcvChkRdy_sof (h : l.state = .rcvChkRdy) {host : PhyWord}
    (hw : host.asPrimitive? = some .sof) :
    l.step host = (.ofPrimitive .rRdy, { l.beginReceive with state := .rcvData }) := by
  simp [step, act, h, hw, beginReceive, LinkState.next]

theorem step_rcvChkRdy_other (h : l.state = .rcvChkRdy) {host : PhyWord}
    (hw : host.asPrimitive? ≠ some .sof) :
    l.step host = (.ofPrimitive .rRdy, l) := by
  simp only [step, act, h, if_neg hw, LinkState.next]
  rw [← h]

/-- A data word while a frame comes in. -/
theorem step_rcvData_data (h : l.state = .rcvData) {host : PhyWord} (hw : host.primitive = false) :
    l.step host = (.ofPrimitive .rIp, { l.receive host.data with state := .rcvData }) := by
  simp [step, act, h, hw, PhyWord.asPrimitive?, LinkState.next]

/-- A flagged word while a frame comes in: it counts only if it ends the frame. -/
theorem step_rcvData_primitive (h : l.state = .rcvData) {host : PhyWord}
    (hw : host.primitive = true) :
    l.step host = (.ofPrimitive .rIp,
      { l with state :=
          if host.asPrimitive? = some .eof then .rcvEof
          else if host.asPrimitive? = some .wtrm then .badEnd else .rcvData }) := by
  simp only [step, act, h, hw, if_true, LinkState.next]
  cases host.asPrimitive? with
  | none => simp
  | some p => cases p <;> simp

theorem step_rcvEof (h : l.state = .rcvEof) (host : PhyWord) :
    l.step host = (.ofPrimitive .rIp,
      { l.endReceive.2 with state := if l.endReceive.1 then .goodEnd else .badEnd }) := by
  simp only [step, act, h, endReceive_state, LinkState.next]

theorem step_goodEnd (h : l.state = .goodEnd) (host : PhyWord) :
    l.step host = (.ofPrimitive .ok,
      { l with state := if host.asPrimitive? = some .sync then .idle else .goodEnd }) := by
  simp only [step, act, h, LinkState.next]

theorem step_badEnd (h : l.state = .badEnd) (host : PhyWord) :
    l.step host = (.ofPrimitive .err,
      { l with state := if host.asPrimitive? = some .sync then .idle else .badEnd }) := by
  simp only [step, act, h, LinkState.next]

/-! ### In every state -/

/-- The work of a step leaves the state to the transition after it. -/
theorem act_state (l : Link) (host : PhyWord) : (l.act host).2.2.2.state = l.state := by
  unfold act
  cases h : l.state with
  | idle => rfl
  | sendEof => rfl
  | sendData => exact (transmit_state l).trans h
  | rcvChkRdy =>
      dsimp only
      split
      · exact h
      · exact h
  | rcvData =>
      dsimp only
      split
      · exact h
      · exact h
  | rcvEof => exact (endReceive_state l).trans h
  | _ => exact h

/-- The state of the next step depends on the word of the host only for its primitive. -/
theorem step_state (l : Link) (host : PhyWord) :
    ∃ seen : LinkState.Observation, seen.host = host.asPrimitive? ∧
      (l.step host).2.state = l.state.next seen :=
  ⟨_, rfl, congrArg (LinkState.next · _) (act_state l host)⟩

/-- A frame leaves the queue with its end. -/
theorem step_outbound (l : Link) (host : PhyWord) :
    (l.step host).2.outbound = if l.state = .sendEof then l.outbound.tail else l.outbound := by
  show (l.act host).2.2.2.outbound = _
  unfold act
  cases l.state with
  | sendData => exact transmit_outbound l
  | rcvChkRdy =>
      dsimp only
      split
      · rfl
      · rfl
  | rcvData =>
      dsimp only
      split
      · rfl
      · rfl
  | rcvEof => exact endReceive_outbound l
  | _ => rfl

/-- No step changes the settings. -/
theorem step_parameters (l : Link) (host : PhyWord) :
    (l.step host).2.parameters = l.parameters := by
  show (l.act host).2.2.2.parameters = l.parameters
  unfold act
  cases l.state with
  | sendData => exact transmit_parameters l
  | rcvChkRdy =>
      dsimp only
      split
      · rfl
      · rfl
  | rcvData =>
      dsimp only
      split
      · rfl
      · rfl
  | rcvEof => exact endReceive_parameters l
  | _ => rfl

/-- A state with a primitive of its own drives it, whatever the host does. -/
theorem step_driven {p : Primitive} (h : l.state.driven = some p) (host : PhyWord) :
    (l.step host).1 = .ofPrimitive p := by
  show (l.act host).1 = .ofPrimitive p
  unfold act
  cases hs : l.state with
  | sendData => rw [hs] at h; cases h
  | _ =>
      rw [hs] at h
      cases h
      rfl

/-- A primitive on the lanes tells the state that drives it; only the start of a frame comes
from a state that drives other words, too. -/
theorem driven_of_carries {p : Primitive} {host : PhyWord} (h : (l.step host).1.carries p = true) :
    l.state.driven = some p ∨
      l.state = .sendData ∧ p = .sof ∧ (l.outbound = [] ∨ l.unsent = none) := by
  cases hd : l.state.driven with
  | some q =>
      rw [step_driven hd, PhyWord.carries_ofPrimitive, decide_eq_true_eq] at h
      rw [h]
      exact .inl rfl
  | none =>
      have hs : l.state = .sendData := by
        cases hs : l.state with
        | sendData => rfl
        | _ => rw [hs] at hd; cases hd
      refine .inr ⟨hs, ?_⟩
      rw [step_sendData hs, transmit] at h
      split at h
      · next ho =>
        rw [PhyWord.carries_ofPrimitive, decide_eq_true_eq] at h
        exact ⟨h.symm, .inl ho⟩
      · split at h
        · next hu =>
          rw [PhyWord.carries_ofPrimitive, decide_eq_true_eq] at h
          exact ⟨h.symm, .inr hu⟩
        · cases h
        · cases h

/-- The frames that came intact change only at the end of a frame. -/
theorem step_received_of_ne_rcvEof (hne : l.state ≠ .rcvEof) (host : PhyWord) :
    (l.step host).2.received = l.received := by
  show (l.act host).2.2.2.received = l.received
  unfold act
  cases h : l.state with
  | sendData => exact transmit_received l
  | rcvChkRdy =>
      dsimp only
      split
      · rfl
      · rfl
  | rcvData =>
      dsimp only
      split
      · rfl
      · rfl
  | rcvEof => exact absurd h hne
  | _ => rfl

/-- The frame that a step accepts: the one that has come in when the link enters
`goodEnd`. -/
def accepted? (l : Link) (host : PhyWord) : Option Frame :=
  if l.state ≠ .goodEnd ∧ (l.step host).2.state = .goodEnd then some l.reception.words.toList
  else none

/-- At the end of a frame, what the step accepts is what the link finds intact. -/
theorem accepted?_rcvEof (h : l.state = .rcvEof) (host : PhyWord) :
    l.accepted? host =
      if l.reception.isIntact l.coder.crc then some l.reception.words.toList else none := by
  unfold accepted?
  rw [step_rcvEof h, h]
  cases hi : l.reception.isIntact l.coder.crc with
  | true => simp [endReceive_of_intact hi]
  | false => simp [endReceive_of_damaged hi]

/-- The link enters `goodEnd` only from the end of a frame. -/
theorem rcvEof_of_step_goodEnd {host : PhyWord} (hne : l.state ≠ .goodEnd)
    (hs : (l.step host).2.state = .goodEnd) : l.state = .rcvEof := by
  have hnext : (l.act host).2.2.2.state.next _ = .goodEnd := hs
  rw [act_state] at hnext
  exact (LinkState.eq_of_next_goodEnd hnext).resolve_left hne

/-- Elsewhere nothing is accepted. -/
theorem accepted?_of_ne_rcvEof (h : l.state ≠ .rcvEof) (host : PhyWord) :
    l.accepted? host = none :=
  if_neg fun hs => h (rcvEof_of_step_goodEnd hs.1 hs.2)

theorem rcvEof_of_accepted? {host : PhyWord} {frame : Frame}
    (h : l.accepted? host = some frame) : l.state = .rcvEof := by
  by_cases hs : l.state = .rcvEof
  · exact hs
  · rw [accepted?_of_ne_rcvEof hs] at h
    cases h

/-- A step adds what it accepts to the frames that came intact, and does nothing else
to them. -/
theorem step_received (l : Link) (host : PhyWord) :
    (l.step host).2.received = l.received ++ (l.accepted? host).toList := by
  by_cases h : l.state = .rcvEof
  · rw [accepted?_rcvEof h, step_rcvEof h]
    cases hi : l.reception.isIntact l.coder.crc with
    | true => rw [endReceive_of_intact hi]; rfl
    | false => rw [endReceive_of_damaged hi]; simp
  · rw [accepted?_of_ne_rcvEof h, step_received_of_ne_rcvEof h]
    exact (List.append_nil _).symm

/-! ### Steps in a row -/

/-- The link after it has taken words of the host, one in each step. -/
def after (l : Link) (hosts : List PhyWord) : Link :=
  hosts.foldl (fun l host => (l.step host).2) l

@[simp] theorem after_nil (l : Link) : l.after [] = l := rfl

@[simp] theorem after_cons (l : Link) (host : PhyWord) (hosts : List PhyWord) :
    l.after (host :: hosts) = (l.step host).2.after hosts := rfl

theorem after_append (l : Link) (us ws : List PhyWord) :
    l.after (us ++ ws) = (l.after us).after ws :=
  List.foldl_append

end Link

end SerialAta
