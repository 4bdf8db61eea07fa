import SerialAta.Proofs.Drive.Edges
import SerialAta.Proofs.Link.Transmission
/-!
# SerialAta.Proofs.Drive.Delivery

**The drive behind its link.** Seen from the host, a drive is its command layer between two
queues that lose nothing: the frames that the link accepts go in one by one, and the answers
come out on the lanes (`delivers_accepted_frames`). How the edges of the two sides fall, what
words the host drives and how often both sides announce a frame at once makes no difference to
that.

The invariant `Drive.Serves` ties the drive to what has been seen of it: the frames accepted so
far and the words driven so far. It starts from any command layer and disk, so that it also
serves for what happens after a reset.
-/

namespace SerialAta

/-! ### The command layer on its own -/

/-- Handles frames in order: all the answers, and command layer and disk afterwards. -/
def CommandLayer.handleAll (c : CommandLayer) (disk : Disk) :
    List Frame → List Fis × CommandLayer × Disk
  | [] => ([], c, disk)
  | frame :: frames =>
    let (replies, c, disk) := c.handle disk frame
    let (more, c, disk) := c.handleAll disk frames
    (replies ++ more, c, disk)

theorem CommandLayer.handleAll_concat (c : CommandLayer) (disk : Disk) (frames : List Frame)
    (frame : Frame) :
    c.handleAll disk (frames ++ [frame]) =
      let (replies, c, disk) := c.handleAll disk frames
      let (more, c, disk) := c.handle disk frame
      (replies ++ more, c, disk) := by
  induction frames generalizing c disk with
  | nil => simp [handleAll]
  | cons f frames ih => simp only [List.cons_append, handleAll, ih, List.append_assoc]

/-! ### Runs of the drive -/

/-- What may happen to a drive. -/
inductive DriveEdge
  /-- A transmit edge. -/
  | tx (signals : HostSignals)
  /-- A receive edge. -/
  | rx

namespace Drive

/-- The drive after an edge. -/
def edge (d : Drive) : DriveEdge → Drive
  | .tx signals => (d.txEdge signals).2
  | .rx => d.rxEdge.2

/-- The frame accepted in an edge: the one that has come in when the link enters `goodEnd`. -/
def accepts? (d : Drive) (e : DriveEdge) : Option Frame :=
  if d.link.state ≠ .goodEnd ∧ (d.edge e).link.state = .goodEnd then
    some d.link.reception.words.toList
  else none

/-- The word of the link driven with an edge: the one that stands at the output after a transmit
edge, once the handshake is done. -/
def drives? (d : Drive) (e : DriveEdge) : Option PhyWord :=
  match e with
  | .tx signals => if d.isReady then (d.txEdge signals).2.output else none
  | .rx => none

/-- The drive after a run. -/
def run (d : Drive) (edges : List DriveEdge) : Drive := edges.foldl edge d

/-- The frames accepted in a run, in order. -/
def accepted (d : Drive) : List DriveEdge → List Frame
  | [] => []
  | e :: edges => (d.accepts? e).toList ++ (d.edge e).accepted edges

/-- The words of the link driven in a run, in order. -/
def driven (d : Drive) : List DriveEdge → List PhyWord
  | [] => []
  | e :: edges => (d.drives? e).toList ++ (d.edge e).driven edges

/-- A run without a reset. -/
def KeepsLink (edges : List DriveEdge) : Prop :=
  ∀ signals, .tx signals ∈ edges → signals.reset = false

/-! ### What is kept -/

/-- The drive after it has accepted and driven the given frames and words, from the command
layer `c` and the disk `disk` on. -/
structure Serves (d : Drive) (c : CommandLayer) (disk : Disk) (accepted : List Frame)
    (words : List PhyWord) : Prop where
  received : d.link.received = []
  lastReceived : d.lastReceived = accepted.getLastD []
  handled : (c.handleAll disk accepted).2 = (d.commands, d.disk)
  sent : ∃ sent, (c.handleAll disk accepted).1.map Fis.toWords = sent ++ d.link.outbound ∧
    d.link.HasDriven words sent

theorem serves_new (parameters : LinkParameters) (disk : Disk) :
    (new parameters disk).Serves .new disk [] [] :=
  ⟨rfl, rfl, rfl, [], rfl, Link.hasDriven_new parameters⟩

variable {d : Drive} {c : CommandLayer} {disk : Disk} {accepted : List Frame}
  {words : List PhyWord}

/-- An edge that leaves all but handshake and output alone. -/
theorem Serves.of_eq {d' : Drive} (h : d.Serves c disk accepted words) (hl : d'.link = d.link)
    (hc : d'.commands = d.commands) (hd : d'.disk = d.disk)
    (hr : d'.lastReceived = d.lastReceived) : d'.Serves c disk accepted words := by
  obtain ⟨hreceived, hlast, hhandled, hsent⟩ := h
  exact ⟨hl ▸ hreceived, hr.trans hlast, by rw [hhandled, hc, hd], hl ▸ hsent⟩

/-- A step of the link takes up the frame it accepts and puts out the word it drives. -/
theorem Serves.stepLink (h : d.Serves c disk accepted words) (host : PhyWord) :
    (d.stepLink host).Serves c disk (accepted ++ (d.link.accepted? host).toList)
      (words ++ [(d.link.step host).1]) := by
  obtain ⟨hreceived, hlast, hhandled, sent, hqueue, hdriven⟩ := h
  obtain ⟨ended, hended, hnext⟩ := hdriven.step host
  rw [hended, ← List.append_assoc] at hqueue
  cases ha : d.link.accepted? host with
  | none =>
      rw [stepLink_none hreceived ha, Option.toList_none, List.append_nil]
      refine ⟨?_, hlast, hhandled, sent ++ ended, hqueue, hnext⟩
      simp [Link.step_received, hreceived, ha]
  | some frame =>
      rw [stepLink_some hreceived ha, Option.toList_some]
      -- The command layer has handled all frames before this one, so it handles it next.
      have hall : c.handleAll disk (accepted ++ [frame]) =
          ((c.handleAll disk accepted).1 ++ (d.commands.handle d.disk frame).1,
            (d.commands.handle d.disk frame).2) := by
        rw [CommandLayer.handleAll_concat]
        rcases hacc : c.handleAll disk accepted with ⟨replies, c', disk'⟩
        rw [hacc] at hhandled
        obtain ⟨rfl, rfl⟩ := Prod.mk.inj hhandled
        rfl
      refine ⟨rfl, by simp, by rw [hall], sent ++ ended, ?_, hnext.of_queued rfl rfl rfl rfl⟩
      rw [hall, List.map_append, hqueue, List.append_assoc]
      rfl

/-- Where the link does not move, no frame is accepted. -/
theorem accepts?_of_state {e : DriveEdge} (h : (d.edge e).link.state = d.link.state) :
    d.accepts? e = none := by
  rw [accepts?, h]
  exact if_neg fun hs => hs.1 hs.2

theorem accepts?_rx (d : Drive) : d.accepts? .rx = none := accepts?_of_state rfl

theorem accepts?_waiting (hready : d.isReady = false) {signals : HostSignals}
    (hreset : signals.reset = false) : d.accepts? (.tx signals) = none :=
  accepts?_of_state (by rw [Drive.edge, txEdge_waiting hready hreset, link_listened])

/-- A drive that is up accepts what its link accepts. -/
theorem accepts?_ready (hready : d.isReady = true) (hreceived : d.link.received = [])
    {signals : HostSignals} (hreset : signals.reset = false) :
    d.accepts? (.tx signals) = d.link.accepted? signals.word := by
  obtain ⟨hstate, -⟩ := stepLink_state (d := d.listened signals) hreceived signals.word
  rw [accepts?, Drive.edge, txEdge_ready hready hreset, hstate]
  rfl

theorem Serves.edge (h : d.Serves c disk accepted words) {e : DriveEdge}
    (he : ∀ signals, e = .tx signals → signals.reset = false) :
    (d.edge e).Serves c disk (accepted ++ (d.accepts? e).toList)
      (words ++ (d.drives? e).toList) := by
  cases e with
  | rx =>
      rw [accepts?_rx, drives?, Option.toList_none, Option.toList_none, List.append_nil,
        List.append_nil]
      exact h.of_eq rfl rfl rfl rfl
  | tx signals =>
      have hreset := he signals rfl
      cases hready : d.isReady with
      | false =>
          have hdrives : d.drives? (.tx signals) = none := by simp [drives?, hready]
          rw [accepts?_waiting hready hreset, hdrives, Option.toList_none, Option.toList_none,
            List.append_nil, List.append_nil, Drive.edge, txEdge_waiting hready hreset]
          exact h.of_eq rfl rfl rfl rfl
      | true =>
          have hedge := txEdge_ready hready hreset
          have h₁ : (d.listened signals).Serves c disk accepted words := h.of_eq rfl rfl rfl rfl
          obtain ⟨-, houtput⟩ := stepLink_state h₁.received signals.word
          have hdrives : d.drives? (.tx signals) = some (d.link.step signals.word).1 := by
            simp only [drives?, hready, if_true]
            rw [hedge, houtput, link_listened]
          rw [accepts?_ready hready h.received hreset, hdrives, Drive.edge, hedge]
          exact h₁.stepLink signals.word

theorem Serves.run (h : d.Serves c disk accepted words) {edges : List DriveEdge}
    (he : KeepsLink edges) :
    (d.run edges).Serves c disk (accepted ++ d.accepted edges) (words ++ d.driven edges) := by
  induction edges generalizing d accepted words with
  | nil => simpa [Drive.run, Drive.accepted, driven] using h
  | cons e edges ih =>
      have hfirst := h.edge fun signals hs => he signals (hs ▸ List.mem_cons_self ..)
      have hrest := ih hfirst fun signals hs => he signals (List.mem_cons_of_mem e hs)
      rw [List.append_assoc, List.append_assoc] at hrest
      exact hrest

/-- **The drive is its command layer behind two queues that lose nothing.** After any run of a
new drive without a reset, command layer and disk are what handling the accepted frames in
order makes of them, the frame shown as received is the last of these, and none waits to be
handled. Of the answers to them, in order, the first are on the lanes, each whole and once, and
the others are pending; at most the first of those has begun. -/
theorem delivers_accepted_frames (parameters : LinkParameters) (disk : Disk)
    {edges : List DriveEdge} (he : KeepsLink edges) :
    let start := new parameters disk
    let d := start.run edges
    let frames := start.accepted edges
    let handled := CommandLayer.new.handleAll disk frames
    (d.commands, d.disk) = handled.2 ∧ d.lastReceived = frames.getLastD [] ∧
      d.link.received = [] ∧
      ∃ sent, handled.1.map Fis.toWords = sent ++ d.link.outbound ∧
        Transmits (start.driven edges) sent d.link.outbound ∧
        (start.driven edges).count (.ofPrimitive .eof) = sent.length := by
  intro start d frames handled
  have h : d.Serves .new disk frames (start.driven edges) := (serves_new parameters disk).run he
  obtain ⟨sent, hqueue, hdriven⟩ := h.sent
  exact ⟨h.handled.symm, h.lastReceived, h.received, sent, hqueue, hdriven.transmits,
    hdriven.count_eof⟩

/-- A drive that is woken up and given a command it does not serve. -/
theorem delivers_one_command :
    let frame : Frame := [0x00EC0027]
    let burst : HostSignals := { HostSignals.electricalIdle with cominit := true, comwake := true }
    let words : List PhyWord :=
      [.ofPrimitive .align, .ofPrimitive .xRdy, .ofPrimitive .sof] ++
        (WireCoder.wireForm frame).map .ofData ++ [.ofPrimitive .eof, .ofPrimitive .wtrm]
    let edges : List DriveEdge :=
      [.tx burst, .rx, .rx, .tx burst, .rx, .rx] ++ words.map fun w => .tx (.ofWord w)
    let start := new { LinkParameters.standard with alignCount := 1 } (.zeroed 0)
    KeepsLink edges ∧ start.accepted edges = [frame] ∧
      (start.run edges).lastReceived = frame := by
  intro frame burst words edges start
  have he : KeepsLink edges := by
    intro signals hs
    rcases List.mem_append.mp hs with hs | hs
    · simp only [List.mem_cons, DriveEdge.tx.injEq, reduceCtorEq, List.not_mem_nil, false_or,
        or_false, or_self] at hs
      rw [hs]
      rfl
    · obtain ⟨w, -, hw⟩ := List.mem_map.mp hs
      obtain rfl := DriveEdge.tx.inj hw
      rfl
  have haccepted : start.accepted edges = [frame] := by decide +kernel
  obtain ⟨-, hlast, -⟩ := delivers_accepted_frames
    { LinkParameters.standard with alignCount := 1 } (.zeroed 0) he
  exact ⟨he, haccepted, hlast.trans (by rw [haccepted]; rfl)⟩

end Drive

end SerialAta
