import SerialAta.Bus.DelayLine
import SerialAta.Bus.Stalls
import SerialAta.Storage.Directory
import SerialAta.Storage.Store
/-!
# SerialAta.Bus.Memory

The **bus memory**: words behind a pipelined bus, which accepts a request in every step
unless it stalls, and responds to it a fixed number of steps later.

A request is accepted or not in the step it is made, and takes effect at once: a write
changes the memory, a read takes its words. Only the response is late
(`SerialAta.Bus.DelayLine`). A step without a bus cycle drops all responses.

The memory transfers beats of one to sixteen words, the most significant first: word
`k` of a beat is word `address * width + k` of the memory. Addresses wrap around at the
end of the memory, whose size is a power of two.
-/

namespace SerialAta

/-! ### Parameters -/

/-- The most words of a beat; the selects of a beat have four bits for each. -/
def maxBeatWords : Nat := 16

/-- The settings of a bus memory. -/
structure BusParameters where
  /-- Size in words, before rounding up to a power of two. -/
  words : Nat
  /-- Steps from acceptance to response. -/
  delay : UInt32
  /-- One request in so many stalls; zero for none. -/
  stallOneIn : UInt32
  /-- Seed of the stalls. -/
  seed : Option UInt64
  /-- Words of a beat. -/
  wordsPerBeat : UInt32
  deriving DecidableEq, Repr

/-- Four megabytes behind four steps of delay. -/
def BusParameters.standard : BusParameters :=
  { words := 0x100000, delay := 4, stallOneIn := 64, seed := none, wordsPerBeat := 1 }

/-- Why a memory cannot be made, or its image not be loaded or saved. -/
inductive BusError
  /-- The image file cannot be read or written. -/
  | io (cause : FileError)
  /-- The image file is smaller than the memory, in words. -/
  | shortImage (read expected : Nat)
  /-- A response cannot come in the step of its request. -/
  | invalidDelay (delay : UInt32)
  /-- The beats have no words, too many, or not a power of two. -/
  | invalidBeatWidth (width : UInt32)
  deriving DecidableEq, Repr

/-- The wording of a memory error. -/
def BusError.message : BusError → String
  | io cause => "memory image I/O error: " ++ cause.message
  | shortImage read expected =>
    "only read " ++ toString read ++ " of " ++ toString expected ++
      " words; remainder zero-filled"
  | invalidDelay delay => "invalid bus delay " ++ toString delay ++ ": must be at least 1"
  | invalidBeatWidth width =>
    "invalid beat width " ++ toString width ++ ": must be a power of two in 1..=16"

/-! ### Signals -/

/-- What the master drives in one step. -/
structure BusRequest where
  /-- A bus cycle is in progress. -/
  cyc : Bool
  /-- A request is made. -/
  stb : Bool
  /-- The request is a write. -/
  we : Bool
  /-- The address of the beat. -/
  addr : UInt32
  /-- The words to write. Words that a short list does not have are not written. -/
  data : List UInt32
  /-- The bytes to write: four bits for each word, the last word in the lowest four,
  and in each the highest bit for the most significant byte. -/
  sel : UInt64
  deriving DecidableEq, Repr

/-- What the memory answers in one step. -/
structure BusReply where
  /-- The request was turned down. -/
  stall : Bool
  /-- A response is given. -/
  ack : Bool
  deriving DecidableEq, Repr

/-! ### The memory -/

/-- Whether a beat can have `width` words: 1, 2, 4, 8 or 16. -/
def isBeatWidth (width : UInt32) : Bool :=
  1 ≤ width.toNat && width.toNat ≤ maxBeatWords && width.toNat.isPowerOfTwo

/-- A memory with its bus, stalled by a source of type `σ`. -/
structure BusMemory (σ : Type) where
  /-- Size in words. -/
  capacity : Nat
  /-- The words. -/
  cells : Store capacity
  /-- Words of a beat. -/
  width : Nat
  /-- The responses on their way. -/
  responses : DelayLine
  /-- Where stalls come from. -/
  stalls : σ

namespace BusMemory

variable {σ : Type}

/-- A memory of zeros of at least `words` words and at least one beat. It is meant to have
no more than `maxBytes` bytes; that there is room for it is not examined. -/
def zeroed (words delay width : Nat) (stalls : σ) : BusMemory σ :=
  { capacity := ceilPowerOfTwo (max words width)
    cells := .zeros _
    width
    responses := .new delay width
    stalls }

/-- The memory of given settings, stalled by a given source. -/
def new (parameters : BusParameters) (stalls : σ) : Except BusError (BusMemory σ) :=
  if parameters.delay = 0 then .error (.invalidDelay parameters.delay)
  else if !isBeatWidth parameters.wordsPerBeat then
    .error (.invalidBeatWidth parameters.wordsPerBeat)
  else .ok (zeroed parameters.words parameters.delay.toNat parameters.wordsPerBeat.toNat stalls)

/-- The memory of given settings with their random stalls, which take what randomness
is at hand if they have no seed. -/
def ofParameters {ρ : Type} [RandomSource ρ] (parameters : BusParameters) (entropy : ρ) :
    Except BusError (BusMemory (StallSource ρ)) :=
  new parameters (.new parameters.stallOneIn parameters.seed entropy)

/-- The word at an address, which wraps around. -/
def word (m : BusMemory σ) (addr : Nat) : UInt32 :=
  m.cells.get (addr % m.capacity)

/-- The memory with the word at an address, which wraps around, changed by `f`. -/
def modifyWord (m : BusMemory σ) (addr : Nat) (f : UInt32 → UInt32) : BusMemory σ :=
  match m with
  | { capacity, cells, width, responses, stalls } =>
    { capacity, cells := cells.modify (addr % capacity) f, width, responses, stalls }

/-- The memory with the word at an address, which wraps around, replaced. -/
def setWord (m : BusMemory σ) (addr : Nat) (value : UInt32) : BusMemory σ :=
  m.modifyWord addr fun _ => value

/-! ### Beats -/

/-- The bits of the bytes that four select bits choose. -/
def byteMask (select : UInt64) : UInt32 :=
  (List.range 4).foldl
    (fun mask k =>
      if (select >>> k.toUInt64) &&& 1 = 0 then mask
      else mask ||| ((0xFF : UInt32) <<< (8 * k).toUInt32))
    0

/-- The word `old` with the bits of `mask` taken from `value`. -/
def merge (mask value old : UInt32) : UInt32 :=
  (old &&& ~~~mask) ||| (value &&& mask)

/-- The select bits of word `k` in a beat of `width` words. -/
def selectOf (sel : UInt64) (width k : Nat) : UInt64 :=
  (sel >>> (4 * (width - 1 - k)).toUInt64) &&& 0x0F

/-- Writes the words of a beat from word `k` of it on, at `base` and after. -/
def writeBeat (m : BusMemory σ) (base : Nat) (sel : UInt64) (k : Nat) :
    (words : List UInt32) → BusMemory σ
  | [] => m
  | value :: words =>
    let mask := byteMask (selectOf sel m.width k)
    (m.modifyWord (base + k) (merge mask value)).writeBeat base sel (k + 1) words

/-- The words of the beat at `base`. -/
def readBeat (m : BusMemory σ) (base : Nat) : List UInt32 :=
  (List.range m.width).map fun k => m.word (base + k)

/-! ### Steps -/

/-- Carries out a request that was accepted, and puts its response on its way. -/
def accept (m : BusMemory σ) (req : BusRequest) : BusMemory σ :=
  let base := req.addr.toNat * m.width
  if req.we then
    let m := m.writeBeat base req.sel 0 (req.data.take m.width)
    { m with responses := m.responses.put none }
  else
    let words := m.readBeat base
    { m with responses := m.responses.put (some words) }

/-- One step of the bus. The words of the slot that is due are laid over `out`; they
mean something only with an acknowledgment. Only a request draws a stall decision. -/
def step [StallPolicy σ] (m : BusMemory σ) (req : BusRequest) (out : List UInt32) :
    BusReply × List UInt32 × BusMemory σ :=
  match m with
  | { capacity, cells, width, responses, stalls } =>
    if !req.cyc then
      ({ stall := false, ack := false }, out,
        { capacity, cells, width, responses := responses.clear, stalls })
    else
      let (ack, out, responses) := responses.tick out
      if req.stb then
        let (stall, stalls) := StallPolicy.next stalls
        let m := { capacity, cells, width, responses, stalls : BusMemory σ }
        ({ stall, ack }, out, if stall then m else m.accept req)
      else
        ({ stall := false, ack }, out, { capacity, cells, width, responses, stalls })

/-- The number of requests whose response is still to come. -/
def inFlight (m : BusMemory σ) : Nat := m.responses.inFlight

/-! ### Images -/

/-- Loads the words of a big-endian image from `addr` on, from word `k` of the image,
`n` words in all. -/
def loadWords (m : BusMemory σ) (addr : Nat) (bytes : Bytes) (k : Nat) : (n : Nat) → BusMemory σ
  | 0 => m
  | n + 1 => (m.setWord (addr + k) (ByteImage.bigWord bytes k)).loadWords addr bytes (k + 1) n

/-- Loads a big-endian image from `addr` on. A last word that is not whole is filled
up with zeros. Addresses are numbers without a bound: the last word of the image is meant
to have an address of 64 bits. -/
def loadBytes (m : BusMemory σ) (addr : Nat) (bytes : Bytes) : BusMemory σ :=
  m.loadWords addr bytes 0 (ByteImage.wordCount bytes)

/-- The memory with every word zero. -/
def cleared (m : BusMemory σ) : BusMemory σ :=
  { m with cells := .zeros _ }

/-- Loads a big-endian image file from address zero on. Only whole words count; what
the file does not cover is zero afterwards, also where the file is missing or too
short, which is reported. -/
def load (m : BusMemory σ) (dir : Directory) (name : String) :
    Except BusError Unit × BusMemory σ :=
  let m := m.cleared
  match dir.read name with
  | .error cause => (.error (.io cause), m)
  | .ok bytes =>
    let capacity := m.capacity
    let whole := min (bytes.size / 4) capacity
    let result := if whole < capacity then .error (.shortImage whole capacity) else .ok ()
    (result, m.loadWords 0 bytes 0 whole)

/-- Saves the memory as a big-endian image. -/
def save (m : BusMemory σ) (dir : Directory) (name : String) : Except BusError Directory :=
  match dir.write name (ByteImage.ofWordsBig m.cells.toArray) with
  | .ok dir => .ok dir
  | .error cause => .error (.io cause)

end BusMemory

end SerialAta
