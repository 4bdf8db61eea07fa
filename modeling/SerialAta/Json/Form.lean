import SerialAta.Json.Value
/-!
# SerialAta.Json.Form

The **interchange form** of a type in JSON: a way to write its values and to read them
back (`Json.Form`).

The forms of structures and of types with several constructors follow common rules. A
structure is written as an object and read from an object, in which keys it does not
have are ignored, or from the list of its fields. A constructor without fields is written
as its name and also read from an object that gives it `null`; any other constructor is
an object with the name as its one key.
-/

namespace SerialAta.Json

/-- A type with a form in JSON. -/
class Form (α : Type) where
  /-- The form of a value. -/
  write : α → Value
  /-- The value of a form. -/
  read? : Value → Option α

/-- A natural number below `bound`. -/
def natBelow? (bound : Nat) : Value → Option Nat
  | .number (some n) => if n < bound then some n else none
  | _ => none

instance : Form UInt8 where
  write n := .nat n.toNat
  read? v := (natBelow? UInt8.size v).map Nat.toUInt8

instance : Form UInt16 where
  write n := .nat n.toNat
  read? v := (natBelow? UInt16.size v).map Nat.toUInt16

instance : Form UInt32 where
  write n := .nat n.toNat
  read? v := (natBelow? UInt32.size v).map Nat.toUInt32

instance : Form UInt64 where
  write n := .nat n.toNat
  read? v := (natBelow? UInt64.size v).map Nat.toUInt64

instance : Form Bool where
  write b := .bool b
  read?
    | .bool b => some b
    | _ => none

instance [Form α] : Form (List α) where
  write as := .array (as.map Form.write)
  read?
    | .array vs => vs.mapM Form.read?
    | _ => none

/-- The value of a key that occurs once; a key that repeats or is missing has
none. -/
def uniqueValue? (entries : List (Option String × Value)) (key : String) : Option Value :=
  match entries.filter fun e => e.1 == some key with
  | [(_, v)] => some v
  | _ => none

/-- The values of the fields of a structure, in the order of `keys`. Every key has to
be text, also one that is ignored. -/
def fields? (keys : List String) : Value → Option (List Value)
  | .object entries =>
    if entries.all fun e => e.1.isSome then keys.mapM (uniqueValue? entries) else none
  | .array vs => if vs.length = keys.length then some vs else none
  | _ => none

/-- The name of a constructor and the form of its fields; a name alone has none. -/
def variant? : Value → Option (String × Option Value)
  | .string (some name) => some (name, none)
  | .object [(some name, v)] => some (name, some v)
  | _ => none

/-- The name of a constructor without fields. -/
def unitVariant? (v : Value) : Option String :=
  match variant? v with
  | some (name, none) => some name
  | some (name, some .null) => some name
  | _ => none

/-- The form of a constructor with fields. -/
def variant (name : String) (fields : Value) : Value := .record [(name, fields)]

end SerialAta.Json
