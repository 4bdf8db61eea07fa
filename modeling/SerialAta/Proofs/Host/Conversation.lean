import SerialAta.Proofs.Drive.Delivery
import SerialAta.Proofs.Host.Reachable
/-!
# SerialAta.Proofs.Host.Conversation

**What a host has said and heard** by the time a program of it has ended.

`HostM.Does` says that a program succeeds. Here it is the other way round: a program *has*
succeeded, from whatever host, and the question is what has happened. The answer comes in two
parts that know nothing of each other.

* The program alone tells the words that it has sent, up to the number of times that a
  primitive was repeated, and what was heard at the end of each wait (`await_ok`,
  `sendFrame_ok`). No state of the drive is looked at.
* The host after some words (`Host.after`) and the frames that its drive has handled meanwhile
  (`Host.handles`) follow from the link alone, as long as it accepts nothing
  (`Backdrop.Linked.after_words`).
-/

namespace SerialAta

/-- The edges of a host that sends words, one in each full step. -/
def DriveEdge.ofWords (words : List PhyWord) : List DriveEdge :=
  words.flatMap fun word => [.tx (.ofWord word), .rx]

theorem DriveEdge.ofWords_append (us ws : List PhyWord) :
    ofWords (us ++ ws) = ofWords us ++ ofWords ws :=
  List.flatMap_append

theorem Drive.accepted_append (d : Drive) (us ws : List DriveEdge) :
    d.accepted (us ++ ws) = d.accepted us ++ (d.run us).accepted ws := by
  induction us generalizing d with
  | nil => rfl
  | cons e us ih =>
      simp only [List.cons_append, accepted, ih, List.append_assoc]
      rfl

namespace Host

/-! ### Words sent and heard -/

/-- The word that the host hears in the step in which it sends `word`. -/
def hears (h : Host) (word : PhyWord) : PhyWord := (h.cycle (.ofWord word)).1.2.word

/-- The host after it has sent words, one in each step. -/
def after (h : Host) (words : List PhyWord) : Host :=
  words.foldl (fun h word => (h.cycle (.ofWord word)).2) h

/-- The frames that the drive handles while the host sends words. -/
def handles (h : Host) (words : List PhyWord) : List Frame :=
  h.drive.accepted (DriveEdge.ofWords words)

variable {h : Host}

@[simp] theorem after_nil (h : Host) : h.after [] = h := rfl

theorem after_append (h : Host) (us ws : List PhyWord) :
    h.after (us ++ ws) = (h.after us).after ws :=
  List.foldl_append

theorem after_cons (h : Host) (word : PhyWord) (words : List PhyWord) :
    h.after (word :: words) = (h.after [word]).after words := rfl

theorem drive_after (h : Host) (words : List PhyWord) :
    (h.after words).drive = h.drive.run (DriveEdge.ofWords words) := by
  induction words generalizing h with
  | nil => rfl
  | cons word words ih => exact ih _

theorem stepLimit_after (h : Host) (words : List PhyWord) :
    (h.after words).stepLimit = h.stepLimit := by
  induction words generalizing h with
  | nil => rfl
  | cons word words ih => exact ih _

theorem steps_after (h : Host) (words : List PhyWord) :
    (h.after words).steps = h.steps + words.length := by
  induction words generalizing h with
  | nil => rfl
  | cons word words ih =>
      rw [after_cons, ih, List.length_cons]
      show h.steps + 1 + words.length = _
      omega

theorem handles_append (h : Host) (us ws : List PhyWord) :
    h.handles (us ++ ws) = h.handles us ++ (h.after us).handles ws := by
  rw [handles, DriveEdge.ofWords_append, Drive.accepted_append, ← drive_after]
  rfl

theorem Reachable.after (hr : h.Reachable) (words : List PhyWord) : (h.after words).Reachable := by
  induction words generalizing h with
  | nil => exact hr
  | cons word words ih => exact ih (.cycle _ hr)

theorem handles_word (h : Host) (word : PhyWord) :
    h.handles [word] = (h.drive.accepts? (.tx (.ofWord word))).toList := by
  show _ ++ ((Drive.accepts? _ .rx).toList ++ []) = _
  rw [Drive.accepts?_rx, Option.toList_none, List.append_nil, List.append_nil]

/-! ### Before the handshake is done -/

/-- A drive that is not up says nothing, and behind its handshake nothing happens. -/
theorem after_asleep (hs : h.drive.SleepsUntilReady) (hready : h.drive.isReady = false)
    (word : PhyWord) :
    h.hears word = default ∧ h.handles [word] = [] ∧ (h.after [word]).backdrop = h.backdrop ∧
      (h.after [word]).drive.link = h.drive.link := by
  have htx := @Drive.txEdge_waiting h.drive hready (.ofWord word) rfl
  have hout : (h.drive.listened (.ofWord word)).output = none := (hs hready).2
  refine ⟨?_, ?_, ?_, ?_⟩
  · show (h.drive.txEdge (.ofWord word)).2.rxEdge.1.word = default
    rw [htx, Drive.rxEdge, hout]
    rfl
  · rw [handles_word, Drive.accepts?_waiting hready rfl, Option.toList_none]
  · show ({ drive := (h.drive.txEdge (.ofWord word)).2.rxEdge.2
            stepLimit := h.stepLimit, steps := h.steps + 1 } : Host).backdrop = _
    rw [htx]
    rfl
  · show (h.drive.txEdge (.ofWord word)).2.rxEdge.2.link = h.drive.link
    rw [htx]
    rfl

/-- Whoever hears a primitive talks to a drive that is up. -/
theorem Reachable.isReady_of_hears (hr : h.Reachable) {word : PhyWord} {p : Primitive}
    (hword : (h.hears word).carries p = true) : h.drive.isReady = true := by
  cases hready : h.drive.isReady with
  | true => rfl
  | false =>
      rw [(after_asleep hr.sleepsUntilReady hready word).1] at hword
      cases hword

end Host

namespace HostM

/-! ### Inversion of programs -/

variable {α β : Type} {h h' : Host}

theorem ok_of_bind {x : HostM α} {f : α → HostM β} {b : β} (hrun : (x >>= f).run h = .ok b h') :
    ∃ a h₁, x.run h = .ok a h₁ ∧ (f a).run h₁ = .ok b h' := by
  rw [EStateM.run_bind] at hrun
  cases hx : x.run h with
  | ok a h₁ => rw [hx] at hrun; exact ⟨a, h₁, rfl, hrun⟩
  | error e h₁ => rw [hx] at hrun; cases hrun

theorem send_ok {word heard : PhyWord} (hrun : (send word).run h = .ok heard h') :
    heard = h.hears word ∧ h' = h.after [word] := by
  have hsend : (send word).run h = .ok (h.hears word) (h.after [word]) := rfl
  rw [hsend] at hrun
  obtain ⟨rfl, rfl⟩ := EStateM.Result.ok.inj hrun
  exact ⟨rfl, rfl⟩

end HostM

/-! ### Words on the link -/

theorem Link.received_prefix_after (l : Link) (words : List PhyWord) :
    l.received <+: (l.after words).received := by
  induction words generalizing l with
  | nil => exact List.prefix_rfl
  | cons word words ih =>
      have hstep : l.received <+: (l.step word).2.received :=
        ⟨_, (step_received l word).symm⟩
      exact hstep.trans (ih _)

namespace Backdrop.Linked

variable {b : Backdrop} {l : Link} {h : Host}

/-- A word with which the link accepts no frame. -/
theorem after_word (hl : b.Linked l h) (hreceived : l.received = []) {word : PhyWord}
    (ha : l.accepted? word = none) :
    h.hears word = (l.step word).1 ∧ b.Linked (l.step word).2 (h.after [word]) ∧
      h.handles [word] = [] := by
  obtain ⟨h', hrun, hl'⟩ := HostM.send_does hreceived ha h hl
  obtain ⟨hheard, rfl⟩ := HostM.send_ok hrun
  refine ⟨hheard.symm, hl', ?_⟩
  obtain rfl := hl.link
  rw [Host.handles_word, Drive.accepts?_ready hl.isReady hreceived rfl]
  exact congrArg Option.toList ha

/-- A word with which the link accepts a frame: it is handled, and the answers are queued. -/
theorem after_accepting (hl : b.Linked l h) (hreceived : l.received = []) {word : PhyWord}
    {frame : Frame} (ha : l.accepted? word = some frame) :
    h.hears word = (l.step word).1 ∧
      (b.handled frame).Linked { (l.step word).2 with
        received := []
        outbound := (l.step word).2.outbound ++ b.answers frame } (h.after [word]) ∧
      h.handles [word] = [frame] := by
  obtain ⟨h', hrun, hl'⟩ := HostM.send_does_accepting hreceived ha h hl
  obtain ⟨hheard, rfl⟩ := HostM.send_ok hrun
  refine ⟨hheard.symm, hl', ?_⟩
  obtain rfl := hl.link
  rw [Host.handles_word, Drive.accepts?_ready hl.isReady hreceived rfl]
  exact congrArg Option.toList ha

/-- What is heard does not depend on what is accepted. -/
theorem hears (hl : b.Linked l h) (hreceived : l.received = []) (word : PhyWord) :
    h.hears word = (l.step word).1 := by
  cases ha : l.accepted? word with
  | none => exact (hl.after_word hreceived ha).1
  | some frame => exact (hl.after_accepting hreceived ha).1

/-- Words with which the link accepts no frame. -/
theorem after_words (hl : b.Linked l h) (hreceived : l.received = []) {words : List PhyWord}
    (hnone : (l.after words).received = []) :
    b.Linked (l.after words) (h.after words) ∧ h.handles words = [] := by
  induction words generalizing l h with
  | nil => exact ⟨hl, rfl⟩
  | cons word words ih =>
      -- What is received stays received, so none is received with the first word either.
      have hfirst : (l.step word).2.received = [] :=
        List.prefix_nil.mp (hnone ▸ Link.received_prefix_after _ words)
      have ha : l.accepted? word = none := by
        rw [Link.step_received, hreceived, List.nil_append] at hfirst
        cases ha : l.accepted? word with
        | none => rfl
        | some frame => rw [ha] at hfirst; cases hfirst
      obtain ⟨-, hl', hhandled⟩ := hl.after_word hreceived ha
      obtain ⟨hl'', hhandled'⟩ := ih hl' hfirst hnone
      refine ⟨hl'', ?_⟩
      rw [← List.singleton_append, Host.handles_append, hhandled, hhandled']
      rfl

end Backdrop.Linked

namespace HostM

/-! ### What a program has said -/

variable {β : Type} {h h' : Host}

section Waiting

variable {operation : Operation} {word : PhyWord} {stop : PhyWord → Option β} {b : β}

/-- A poll that has ended has sent its word some times, and heard in the last step what it
waited for. -/
theorem poll_ok {limit left : Nat}
    (hrun : (poll operation (send word) stop limit left).run h = .ok b h') :
    ∃ n < left, h' = h.after (List.replicate (n + 1) word) ∧
      stop ((h.after (List.replicate n word)).hears word) = some b := by
  induction left generalizing h with
  | zero => cases hrun
  | succ left ih =>
      obtain ⟨heard, h₁, hsend, hrest⟩ := ok_of_bind hrun
      obtain ⟨rfl, rfl⟩ := send_ok hsend
      cases hstop : stop (h.hears word) with
      | some result =>
          rw [hstop] at hrest
          obtain ⟨rfl, rfl⟩ := EStateM.Result.ok.inj hrest
          exact ⟨0, by omega, rfl, hstop⟩
      | none =>
          rw [hstop] at hrest
          obtain ⟨n, hn, hh', hheard⟩ := ih hrest
          exact ⟨n + 1, by omega, hh', hheard⟩

theorem await_ok (hrun : (await operation (send word) stop).run h = .ok b h') :
    ∃ n < h.stepLimit, h' = h.after (List.replicate (n + 1) word) ∧
      stop ((h.after (List.replicate n word)).hears word) = some b :=
  poll_ok hrun

theorem exchange_ok {mine theirs : Primitive}
    (hrun : (exchange operation mine theirs).run h = .ok () h') :
    ∃ n < h.stepLimit, h' = h.after (List.replicate (n + 1) (.ofPrimitive mine)) ∧
      ((h.after (List.replicate n (.ofPrimitive mine))).hears (.ofPrimitive mine)).carries theirs =
        true := by
  obtain ⟨n, hn, hh', hheard⟩ := await_ok hrun
  refine ⟨n, hn, hh', ?_⟩
  split at hheard
  · assumption
  · cases hheard

end Waiting

theorem run_sendWords (words : List UInt32) (h : Host) :
    (sendWords words).run h = .ok () (h.after (words.map .ofData)) := by
  induction words generalizing h with
  | nil => rfl
  | cons word words ih => exact ih _

/-- The words of a host that sends a frame: XRDY until the drive is ready, the frame, WTRM until
the verdict has come, and SYNC. -/
def frameDialogue (frame : Frame) (requests polls : Nat) : List PhyWord :=
  List.replicate requests (.ofPrimitive .xRdy) ++ laneForm frame ++
    List.replicate polls (.ofPrimitive .wtrm) ++ [.ofPrimitive .sync]

/-- A host that has sent a frame has heard that the drive was ready, and later the verdict. -/
theorem sendFrame_ok {frame : Frame} {verdict : Bool}
    (hrun : (sendFrame frame).run h = .ok verdict h') :
    ∃ requests polls, h' = h.after (frameDialogue frame (requests + 1) (polls + 1)) ∧
      ((h.after (List.replicate requests (.ofPrimitive .xRdy))).hears
        (.ofPrimitive .xRdy)).carries .rRdy = true ∧
      ((h.after (List.replicate (requests + 1) (.ofPrimitive .xRdy) ++ laneForm frame ++
        List.replicate polls (.ofPrimitive .wtrm))).hears (.ofPrimitive .wtrm)).asPrimitive? =
          some (if verdict then .ok else .err) := by
  obtain ⟨⟨⟩, h₁, hready, hrun⟩ := ok_of_bind hrun
  obtain ⟨requests, -, rfl, hrRdy⟩ := exchange_ok hready
  obtain ⟨_, h₂, hsof, hrun⟩ := ok_of_bind hrun
  obtain ⟨-, rfl⟩ := send_ok hsof
  obtain ⟨⟨⟩, h₃, hwords, hrun⟩ := ok_of_bind hrun
  rw [run_sendWords] at hwords
  obtain ⟨-, rfl⟩ := EStateM.Result.ok.inj hwords
  obtain ⟨_, h₄, heof, hrun⟩ := ok_of_bind hrun
  obtain ⟨-, rfl⟩ := send_ok heof
  obtain ⟨verdict', h₅, hverdict, hrun⟩ := ok_of_bind hrun
  obtain ⟨polls, -, rfl, hheard⟩ := await_ok hverdict
  obtain ⟨_, h₆, hsync, hrun⟩ := ok_of_bind hrun
  obtain ⟨-, rfl⟩ := send_ok hsync
  obtain ⟨rfl, rfl⟩ := EStateM.Result.ok.inj hrun
  refine ⟨requests, polls, ?_, hrRdy, ?_⟩
  · simp only [frameDialogue, laneForm, Host.after_append]
    rfl
  · simp only [laneForm, Host.after_append]
    split at hheard
    · next hok => obtain rfl := Option.some.inj hheard; exact hok
    · next herr => obtain rfl := Option.some.inj hheard; exact herr
    · cases hheard

end HostM

end SerialAta
