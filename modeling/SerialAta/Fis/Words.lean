import SerialAta.Fis.Basic
/-!
# SerialAta.Fis.Words

The **layout of a FIS in words**, `Fis.toWords`, and its inverse `Fis.ofWords`.

Words are in the host's own order: the type byte is the low byte of the first
word. The swap to the order of the wire belongs to the frame layer
(`SerialAta.Frame.Wire`). Reading is lenient where hosts differ: words after the
layout and bits without a meaning are ignored, and a command may be cut short,
its missing words reading as zero.
-/

namespace SerialAta

namespace HostRegister

/-- The layout of a command: type, address nibble, code and features in word 0,
bits 23:0 of the address in word 1, bits 47:24 in word 2, the count in word 3. The
nibble repeats bits 27:24 for drives that know only short addresses. -/
def toWords (r : HostRegister) : List UInt32 :=
  let nibble := ((r.lba >>> 24) &&& 0x0F).toUInt32
  [ (r.features.toUInt32 <<< 24) ||| (r.command.code.toUInt32 <<< 16) |||
      ((deviceLba.toUInt32 ||| nibble) <<< 8) ||| 0x27,
    (deviceLba.toUInt32 <<< 24) ||| (r.lba &&& 0xFFFFFF).toUInt32,
    ((r.lba >>> 24) &&& 0xFFFFFF).toUInt32,
    r.count.toUInt32,
    0 ]

/-- The command with the given first word and the words after it. Where the third
word is zero the address is short, and its bits 27:24 come from the nibble. -/
def ofWords (first : UInt32) (rest : List UInt32) : HostRegister :=
  let low := rest.getD 0 0
  let high := rest.getD 1 0
  let long := (low &&& 0xFFFFFF).toUInt64 ||| ((high &&& 0xFFFFFF).toUInt64 <<< 24)
  { command := .ofCode (first >>> 16).toUInt8
    features := (first >>> 24).toUInt8
    lba := if high = 0 then long ||| (((first >>> 8) &&& 0x0F).toUInt64 <<< 24) else long
    count := (rest.getD 2 0).toUInt8 }

end HostRegister

namespace DeviceRegister

/-- The layout of a report: type, flags, status and error in word 0, device and
bits 23:0 of the address in word 1, bits 47:24 in word 2, the count in word 3. -/
def toWords (r : DeviceRegister) : List UInt32 :=
  [ (r.error.toUInt32 <<< 24) ||| (r.status.toUInt32 <<< 16) ||| (r.flags.toUInt32 <<< 8) |||
      0x34,
    (r.device.toUInt32 <<< 24) ||| (r.lba &&& 0xFFFFFF).toUInt32,
    ((r.lba >>> 24) &&& 0xFFFFFF).toUInt32,
    r.count.toUInt32 ]

/-- The report laid out in the given four words. -/
def ofWords (w0 w1 w2 w3 : UInt32) : DeviceRegister :=
  { status := (w0 >>> 16).toUInt8
    error := (w0 >>> 24).toUInt8
    flags := (w0 >>> 8).toUInt8
    device := (w1 >>> 24).toUInt8
    lba := (w1 &&& 0xFFFFFF).toUInt64 ||| ((w2 &&& 0xFFFFFF).toUInt64 <<< 24)
    count := w3.toUInt16 }

end DeviceRegister

namespace PioSetup

/-- The bit of the second byte that says data flow to the host. -/
def directionBit : UInt8 := 0x20

/-- The layout of a PIO Setup: type, direction and status in word 0, the ending
status in word 3, the byte count in word 4. -/
def toWords (s : PioSetup) : List UInt32 :=
  let direction := if s.toHost then directionBit else 0
  [ (s.status.toUInt32 <<< 16) ||| (direction.toUInt32 <<< 8) ||| 0x5F,
    0,
    0,
    s.endStatus.toUInt32 <<< 24,
    s.transferBytes.toUInt32 <<< 8 ]

/-- The setup laid out in words 0, 3 and 4. -/
def ofWords (w0 w3 w4 : UInt32) : PioSetup :=
  { toHost := (w0 >>> 8).toUInt8 &&& directionBit != 0
    status := (w0 >>> 16).toUInt8
    endStatus := (w3 >>> 24).toUInt8
    transferBytes := (w4 >>> 8).toUInt16 }

end PioSetup

namespace Fis

/-- The layout of a FIS in words. -/
def toWords : Fis → List UInt32
  | hostRegister r => r.toWords
  | deviceRegister r => r.toWords
  | dmaActivate => [0x39]
  | pioSetup s => s.toWords
  | data payload => 0x46 :: payload

/-- The FIS that a frame holds. Only the length that the kind needs is asked
for; a command needs no more than its first word. -/
def ofWords : List UInt32 → Except FisError Fis
  | [] => .error .empty
  | first :: rest =>
    let type := first.toUInt8
    if type = 0x27 then .ok (.hostRegister (.ofWords first rest))
    else if type = 0x34 then
      match rest with
      | w1 :: w2 :: w3 :: _ => .ok (.deviceRegister (.ofWords first w1 w2 w3))
      | _ => .error (.truncated type 4 (rest.length + 1))
    else if type = 0x39 then .ok .dmaActivate
    else if type = 0x5F then
      match rest with
      | _ :: _ :: w3 :: w4 :: _ => .ok (.pioSetup (.ofWords first w3 w4))
      | _ => .error (.truncated type 5 (rest.length + 1))
    else if type = 0x46 then .ok (.data rest)
    else .error (.unknownType type)

end Fis

end SerialAta
