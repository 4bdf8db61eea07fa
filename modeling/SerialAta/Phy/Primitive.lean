/-!
# SerialAta.Phy.Primitive

The **link primitives**: ten control words that steer the exchange of frames.

A primitive travels on the same 32 lanes as data. Only the flag beside the
lanes tells the two apart (`SerialAta.Phy.Word`), so a data word may well equal
a codeword. Codewords are pairwise distinct (`Primitive.code_inj`), and reading
a codeword gives back its primitive (`Primitive.ofCode?_code`).
-/

namespace SerialAta

/-- A control word of the link layer. -/
inductive Primitive
  /-- Clock compensation; also fills the burst that opens the link. -/
  | align
  /-- Filler between frames. -/
  | sync
  /-- The transmitter has a frame ready. -/
  | xRdy
  /-- The receiver is ready for a frame. -/
  | rRdy
  /-- Start of frame. -/
  | sof
  /-- End of frame. -/
  | eof
  /-- The transmitter waits for the verdict on its frame. -/
  | wtrm
  /-- The frame arrived intact. -/
  | ok
  /-- The frame arrived damaged. -/
  | err
  /-- Reception in progress. -/
  | rIp
  deriving DecidableEq, Repr

namespace Primitive

/-- Every primitive, in the order of the type. -/
def all : List Primitive :=
  [align, sync, xRdy, rRdy, sof, eof, wtrm, ok, err, rIp]

/-- The 32 bits transmitted for a primitive. -/
def code : Primitive → UInt32
  | align => 0xBC4A4A7B
  | sync => 0x7C95B5B5
  | xRdy => 0x7CB55757
  | rRdy => 0x7C954A4A
  | sof => 0x7CB53737
  | eof => 0x7CB5D5D5
  | wtrm => 0x7CB55858
  | ok => 0x7CB53535
  | err => 0x7CB55656
  | rIp => 0x7CB55555

/-- The primitive that a codeword stands for, if it is one of the ten. -/
def ofCode? (code : UInt32) : Option Primitive :=
  all.find? fun p => p.code == code

@[simp] theorem ofCode?_code (p : Primitive) : ofCode? p.code = some p := by
  cases p <;> decide

theorem code_inj {p q : Primitive} : p.code = q.code ↔ p = q := by
  refine ⟨fun h => ?_, fun h => h ▸ rfl⟩
  have := ofCode?_code p
  rw [h, ofCode?_code] at this
  exact (Option.some.inj this).symm

theorem ofCode?_eq_some_iff {code : UInt32} {p : Primitive} :
    ofCode? code = some p ↔ code = p.code := by
  refine ⟨fun h => ?_, fun h => h ▸ ofCode?_code p⟩
  have := List.find?_some h
  exact (beq_iff_eq.mp this).symm

/-- The name a protocol analyser shows. -/
def name : Primitive → String
  | align => "ALIGN"
  | sync => "SYNC"
  | xRdy => "XRDY"
  | rRdy => "RRDY"
  | sof => "SOF"
  | eof => "EOF"
  | wtrm => "WTRM"
  | ok => "OK"
  | err => "ERR"
  | rIp => "R_IP"

/-- The primitive of a given name. -/
def ofName? (name : String) : Option Primitive :=
  all.find? fun p => p.name == name

end Primitive

end SerialAta
