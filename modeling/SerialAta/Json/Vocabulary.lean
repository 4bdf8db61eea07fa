import SerialAta.Fis.Basic
import SerialAta.Json.Form
import SerialAta.Json.Reader
import SerialAta.Link.State
import SerialAta.Phy.Handshake
import SerialAta.Phy.Word
/-!
# SerialAta.Json.Vocabulary

The **interchange forms of the link's vocabulary**: primitives and PHY words, commands
and FISes, phases of the handshake and states of the link.
-/

namespace SerialAta

open Json

/-! ### The wire -/

namespace Primitive

/-- The name of a primitive in JSON. -/
def formName : Primitive → String
  | align => "Align"
  | sync => "Sync"
  | xRdy => "XRdy"
  | rRdy => "RRdy"
  | sof => "Sof"
  | eof => "Eof"
  | wtrm => "Wtrm"
  | ok => "Ok"
  | err => "Err"
  | rIp => "RIp"

instance : Form Primitive where
  write p := .text p.formName
  read? v := do
    let name ← unitVariant? v
    all.find? fun p => p.formName == name

end Primitive

instance : Form PhyWord where
  write w := .record [("data", Form.write w.data), ("primitive", Form.write w.primitive)]
  read? v := do
    match ← fields? ["data", "primitive"] v with
    | [data, primitive] =>
      return { data := ← Form.read? data, primitive := ← Form.read? primitive }
    | _ => none

/-! ### FISes -/

namespace Command

/-- The name of a command in JSON; a code without a meaning goes with its name. -/
def formName : Command → String
  | readDma => "DmaRead"
  | writeDma => "DmaWrite"
  | readBuffer => "PioReadBuffer"
  | writeBuffer => "PioWriteBuffer"
  | other _ => "Other"

instance : Form Command where
  write
    | other code => variant "Other" (Form.write code)
    | c => .text c.formName
  read? v := do
    match ← variant? v with
    | ("Other", some code) => return other (← Form.read? code)
    | _ =>
      let name ← unitVariant? v
      [readDma, writeDma, readBuffer, writeBuffer].find? fun c => c.formName == name

end Command

instance : Form HostRegister where
  write r := .record
    [ ("command", Form.write r.command), ("features", Form.write r.features),
      ("lba", Form.write r.lba), ("count", Form.write r.count) ]
  read? v := do
    match ← fields? ["command", "features", "lba", "count"] v with
    | [command, features, lba, count] =>
      return {
        command := ← Form.read? command
        features := ← Form.read? features
        lba := ← Form.read? lba
        count := ← Form.read? count }
    | _ => none

instance : Form DeviceRegister where
  write r := .record
    [ ("status", Form.write r.status), ("error", Form.write r.error),
      ("flags", Form.write r.flags), ("device", Form.write r.device),
      ("lba", Form.write r.lba), ("count", Form.write r.count) ]
  read? v := do
    match ← fields? ["status", "error", "flags", "device", "lba", "count"] v with
    | [status, error, flags, device, lba, count] =>
      return {
        status := ← Form.read? status
        error := ← Form.read? error
        flags := ← Form.read? flags
        device := ← Form.read? device
        lba := ← Form.read? lba
        count := ← Form.read? count }
    | _ => none

instance : Form PioSetup where
  write s := .record
    [ ("to_host", Form.write s.toHost), ("status", Form.write s.status),
      ("e_status", Form.write s.endStatus), ("transfer_bytes", Form.write s.transferBytes) ]
  read? v := do
    match ← fields? ["to_host", "status", "e_status", "transfer_bytes"] v with
    | [toHost, status, endStatus, transferBytes] =>
      return {
        toHost := ← Form.read? toHost
        status := ← Form.read? status
        endStatus := ← Form.read? endStatus
        transferBytes := ← Form.read? transferBytes }
    | _ => none

instance : Form Fis where
  write
    | .hostRegister r => variant "RegH2d" (Form.write r)
    | .deviceRegister r => variant "RegD2h" (Form.write r)
    | .dmaActivate => .text "DmaActivate"
    | .pioSetup s => variant "PioSetup" (Form.write s)
    | .data payload => variant "Data" (Form.write payload)
  read? v := do
    match ← variant? v with
    | ("RegH2d", some r) => return .hostRegister (← Form.read? r)
    | ("RegD2h", some r) => return .deviceRegister (← Form.read? r)
    | ("DmaActivate", none) | ("DmaActivate", some .null) => return .dmaActivate
    | ("PioSetup", some s) => return .pioSetup (← Form.read? s)
    | ("Data", some payload) => return .data (← Form.read? payload)
    | _ => none

/-! ### Handshake and link -/

namespace BurstPhase

/-- The name of a phase in JSON. -/
def formName : BurstPhase → String
  | waiting => "Waiting"
  | detected => "Detected"
  | asserted => "Asserted"
  | sent => "Sent"

instance : Form BurstPhase where
  write p := .text p.formName
  read? v := do
    let name ← unitVariant? v
    [waiting, detected, asserted, sent].find? fun p => p.formName == name

end BurstPhase

namespace LinkState

/-- The name of a state in JSON; the burst goes with its count. -/
def formName : LinkState → String
  | sendAlign _ => "SendAlign"
  | idle => "Idle"
  | sendChkRdy => "SendChkRdy"
  | sendData => "SendData"
  | sendEof => "SendEof"
  | wait => "Wait"
  | rcvChkRdy => "RcvChkRdy"
  | rcvData => "RcvData"
  | rcvEof => "RcvEof"
  | goodEnd => "GoodEnd"
  | badEnd => "BadEnd"

/-- The states that are known by their name alone. -/
def named : List LinkState :=
  [idle, sendChkRdy, sendData, sendEof, wait, rcvChkRdy, rcvData, rcvEof, goodEnd, badEnd]

instance : Form LinkState where
  write
    | sendAlign sent => variant "SendAlign" (.record [("sent", Form.write sent)])
    | s => .text s.formName
  read? v := do
    match ← variant? v with
    | ("SendAlign", some fields) =>
      match ← fields? ["sent"] fields with
      | [sent] => return sendAlign (← Form.read? sent)
      | _ => none
    | _ =>
      let name ← unitVariant? v
      named.find? fun s => s.formName == name

end LinkState

end SerialAta
