import SerialAta.Phy.Primitive
import SerialAta.Text.Hex
/-!
# SerialAta.Phy.Word

**PHY words**: what crosses the link in one step, 32 data bits and the flag that
marks them as a primitive.

Between PHY and link a word is one 33-bit value with the flag at bit 32
(`PhyWord.packed`). A word counts as a primitive only if the flag is set *and*
its bits are one of the ten codewords (`PhyWord.asPrimitive?`); a flagged word
with any other bits is neither data nor a primitive, and the link ignores it.
-/

namespace SerialAta

/-- One word on the link with its out-of-band primitive flag. -/
structure PhyWord where
  /-- The 32 lanes. -/
  data : UInt32
  /-- The lanes hold a primitive, not data. -/
  primitive : Bool
  deriving DecidableEq, Repr

namespace PhyWord

/-- The word on lanes that nobody drives: zero data. -/
instance : Inhabited PhyWord := ⟨⟨0, false⟩⟩

/-- The word that carries primitive `p`. -/
def ofPrimitive (p : Primitive) : PhyWord := ⟨p.code, true⟩

/-- The word that carries `data`. -/
def ofData (data : UInt32) : PhyWord := ⟨data, false⟩

/-- The primitive that a word carries, if it carries one. -/
def asPrimitive? (w : PhyWord) : Option Primitive :=
  if w.primitive then Primitive.ofCode? w.data else none

/-- Whether a word carries primitive `p`. -/
def carries (w : PhyWord) (p : Primitive) : Bool :=
  w.primitive && w.data == p.code

@[simp] theorem asPrimitive?_ofPrimitive (p : Primitive) :
    (ofPrimitive p).asPrimitive? = some p := by
  simp [asPrimitive?, ofPrimitive]

@[simp] theorem asPrimitive?_ofData (data : UInt32) : (ofData data).asPrimitive? = none := rfl

theorem carries_iff {w : PhyWord} {p : Primitive} :
    w.carries p = true ↔ w.asPrimitive? = some p := by
  cases w with
  | mk data primitive =>
    cases primitive <;> simp [carries, asPrimitive?, Primitive.ofCode?_eq_some_iff]

@[simp] theorem carries_ofPrimitive (p q : Primitive) :
    (ofPrimitive p).carries q = decide (p = q) := by
  simp only [carries, ofPrimitive, Bool.true_and]
  by_cases h : p = q
  · simp [h]
  · simp [h, Primitive.code_inj]

@[simp] theorem carries_ofData (data : UInt32) (p : Primitive) :
    (ofData data).carries p = false := rfl

/-- A word as one 33-bit value: the flag above the lanes. -/
def packed (w : PhyWord) : UInt64 :=
  if w.primitive then w.data.toUInt64 ||| ((1 : UInt64) <<< 32) else w.data.toUInt64

/-- The word of a 33-bit value. Bits above the flag are ignored. -/
def ofPacked (v : UInt64) : PhyWord :=
  ⟨v.toUInt32, (v >>> 32) &&& 1 != 0⟩

/-- A word as text: the primitive by name, any other flagged word as `P:` and
eight hexadecimal digits, data as the digits alone. -/
def text (w : PhyWord) : String :=
  match w.asPrimitive? with
  | some p => p.name
  | none =>
    let lanes := Hex.fixed 8 w.data.toNat
    if w.primitive then "P:" ++ lanes else lanes

end PhyWord

end SerialAta
