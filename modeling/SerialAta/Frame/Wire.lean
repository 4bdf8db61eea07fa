import SerialAta.Frame.ByteOrder
import SerialAta.Frame.Crc
import SerialAta.Frame.Scrambler
/-!
# SerialAta.Frame.Wire

How a **frame** looks **on the wire**. A word is scrambled in host order and then put
into wire order; after the last word follows the checksum of the frame, scrambled
and ordered like a word.

`WireCoder` is the state of either end between two words of one frame: scrambler
and checksum, which are always reloaded together. `WireCoder.wireForm` is the whole
frame as the sender drives it, and `ReceivedFrame.ofWire` what a receiver makes of
the words between start and end of a frame.
-/

namespace SerialAta

/-- The words of a frame, in host order, without its checksum. -/
abbrev Frame := List UInt32

/-- Scrambler and checksum of one end of the link, in the course of one frame. -/
structure WireCoder where
  /-- Scrambling of the next word. -/
  scrambler : Scrambler
  /-- Checksum of the words so far. -/
  crc : UInt32
  deriving DecidableEq, Repr

namespace WireCoder

/-- The state at the start of a frame. -/
def initial : WireCoder := ⟨Scrambler.initial, Crc.seed⟩

instance : Inhabited WireCoder := ⟨initial⟩

/-- Sends one word: it counts towards the checksum, and its wire form is
returned. -/
def putWord (c : WireCoder) (word : UInt32) : UInt32 × WireCoder :=
  let (scrambled, scrambler) := c.scrambler.scramble word
  (swapBytes scrambled, { scrambler, crc := Crc.advance c.crc word })

/-- Sends the checksum, which does not count towards itself. -/
def putCrc (c : WireCoder) : UInt32 × WireCoder :=
  let (scrambled, scrambler) := c.scrambler.scramble c.crc
  (swapBytes scrambled, { c with scrambler })

/-- Receives one wire word. The checksum is left alone: whether the word is data
is known only when the next one comes (`WireCoder.countWord`). -/
def takeWord (c : WireCoder) (wire : UInt32) : UInt32 × WireCoder :=
  let (word, scrambler) := c.scrambler.scramble (swapBytes wire)
  (word, { c with scrambler })

/-- Counts a received word towards the checksum. -/
def countWord (c : WireCoder) (word : UInt32) : WireCoder :=
  { c with crc := Crc.advance c.crc word }

/-- The wire forms of the words of a frame, and the coder after them. -/
def putWords (c : WireCoder) : List UInt32 → List UInt32 × WireCoder
  | [] => ([], c)
  | word :: words =>
    let (wire, c) := c.putWord word
    let (wires, c) := putWords c words
    (wire :: wires, c)

/-- The words received for a list of wire words, and the coder after them. -/
def takeWords (c : WireCoder) : List UInt32 → List UInt32 × WireCoder
  | [] => ([], c)
  | wire :: wires =>
    let (word, c) := c.takeWord wire
    let (words, c) := takeWords c wires
    (word :: words, c)

/-- A frame on the wire: its words and its checksum. -/
def wireForm (frame : Frame) : List UInt32 :=
  let (wires, c) := initial.putWords frame
  wires ++ [c.putCrc.1]

/-- A receiver in step with the sender takes off what the sender put on. -/
@[simp] theorem takeWord_putWord (c : WireCoder) (word : UInt32) :
    c.takeWord (c.putWord word).1 =
      (word, { scrambler := (c.putWord word).2.scrambler, crc := c.crc }) := by
  simp [takeWord, putWord, Scrambler.scramble_scramble]

@[simp] theorem takeWord_putCrc (c : WireCoder) :
    c.takeWord c.putCrc.1 = (c.crc, c.putCrc.2) := by
  simp [takeWord, putCrc, Scrambler.scramble_scramble]

@[simp] theorem length_putWords (c : WireCoder) (words : List UInt32) :
    (c.putWords words).1.length = words.length := by
  induction words generalizing c with
  | nil => rfl
  | cons w ws ih => simp [putWords, ih]

@[simp] theorem length_wireForm (frame : Frame) :
    (wireForm frame).length = frame.length + 1 := by
  simp [wireForm]

end WireCoder

/-- A frame as its receiver sees it once it has ended. -/
structure ReceivedFrame where
  /-- The words, in host order, without the checksum. -/
  words : Frame
  /-- The words as they were on the wire, checksum included. -/
  wire : List UInt32
  /-- The frame holds words and its checksum is theirs. -/
  intact : Bool
  deriving DecidableEq, Repr

/-- What the words between start and end of a frame amount to: the last one is
the checksum of those before it. -/
def ReceivedFrame.ofWire (wire : List UInt32) : ReceivedFrame :=
  let taken := (WireCoder.initial.takeWords wire).1
  let words := taken.dropLast
  let trailer? := taken.getLast?
  { words, wire, intact := !words.isEmpty && trailer? == some (Crc.ofWords words) }

end SerialAta
