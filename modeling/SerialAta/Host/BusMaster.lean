import SerialAta.Host.Error
/-!
# SerialAta.Host.BusMaster

The **bus master**: runs of words to and from a bus memory. Requests are made back to
back, one beat after the other, stalled ones again, and the run ends with the last
acknowledgment it waits for.
-/

namespace SerialAta.BusMaster

variable {σ : Type} [StallPolicy σ]

/-- Every byte of every word of a beat. -/
def allBytes : UInt64 := 0xFFFFFFFFFFFFFFFF

/-- Writes beats from address `addr` on until `awaited` acknowledgments have come, in
at most `left` steps, and gives the number of steps out of `limit`. -/
def writeBeats (limit : Nat) (m : BusMemory σ) (addr : UInt32) (beats : List (List UInt32)) :
    (awaited : Nat) → (left : Nat) → Except HostError Nat × BusMemory σ
  | 0, left => (.ok (limit - left), m)
  | _ + 1, 0 => (.error (.timeout .busWrite limit), m)
  | awaited + 1, left + 1 =>
    let stb := !beats.isEmpty
    let (reply, _, m) := m.step
      { cyc := true, stb, we := true, addr, data := beats.headD [], sel := allBytes } []
    let accepted := stb && !reply.stall
    let beats := if accepted then beats.tail else beats
    let addr := if accepted then addr + 1 else addr
    if reply.ack then writeBeats limit m addr beats awaited left
    else writeBeats limit m addr beats (awaited + 1) left
termination_by structural _ left => left

/-- Writes words from the beat at `addr` on and waits for the acknowledgments. The
result is the number of steps taken. A list of words that is in memory leaves room for
the list of its beats. -/
def write (m : BusMemory σ) (addr : UInt32) (words : List UInt32) (limit : Nat) :
    Except HostError Nat × BusMemory σ :=
  let beats := chunks m.width words
  writeBeats limit m addr beats beats.length limit

/-- Reads beats from address `addr` on, of which `toIssue` have still to be requested,
until `awaited` acknowledgments have come, in at most `left` steps. The words of each are
added to `data`. -/
def readBeats (limit : Nat) (m : BusMemory σ) (addr : UInt32) (data : Array UInt32)
    (toIssue : Nat) : (awaited : Nat) → (left : Nat) →
    Except HostError (List UInt32) × BusMemory σ
  | 0, _ => (.ok data.toList, m)
  | _ + 1, 0 => (.error (.timeout .busRead limit), m)
  | awaited + 1, left + 1 =>
    let stb := toIssue != 0
    let blank := List.replicate m.width 0
    let (reply, out, m) := m.step
      { cyc := true, stb, we := false, addr, data := [], sel := 0 } blank
    let accepted := stb && !reply.stall
    let toIssue := if accepted then toIssue - 1 else toIssue
    let addr := if accepted then addr + 1 else addr
    if reply.ack then readBeats limit m addr (data ++ out) toIssue awaited left
    else readBeats limit m addr data toIssue (awaited + 1) left
termination_by structural _ left => left

/-- Reads beats from the one at `addr` on, and gives their words in order. Room for all
of the words is reserved before anything else; what cannot be reserved, because it takes
more than `maxBytes`, is not read. -/
def read (m : BusMemory σ) (addr : UInt32) (beats limit : Nat) :
    Except HostError (List UInt32) × BusMemory σ :=
  if maxBytes < 4 * (beats * m.width) then (.error .capacityOverflow, m)
  else readBeats limit m addr #[] beats beats limit

theorem read_of_le {m : BusMemory σ} {beats : Nat} (hroom : 4 * (beats * m.width) ≤ maxBytes)
    (addr : UInt32) (limit : Nat) :
    read m addr beats limit = readBeats limit m addr #[] beats beats limit :=
  if_neg (Nat.not_lt.mpr hroom)

theorem read_of_lt {m : BusMemory σ} {beats : Nat} (hlong : maxBytes < 4 * (beats * m.width))
    (addr : UInt32) (limit : Nat) :
    read m addr beats limit = (.error .capacityOverflow, m) :=
  if_pos hlong

/-- There was room for what has been read. -/
theorem read_of_ok {m : BusMemory σ} {addr : UInt32} {beats limit : Nat} {result : List UInt32}
    (hok : (read m addr beats limit).1 = .ok result) :
    read m addr beats limit = readBeats limit m addr #[] beats beats limit := by
  rcases Nat.lt_or_ge maxBytes (4 * (beats * m.width)) with hlong | hroom
  · rw [read_of_lt hlong] at hok
    cases hok
  · exact read_of_le hroom addr limit

end SerialAta.BusMaster
