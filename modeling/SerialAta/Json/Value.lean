/-!
# SerialAta.Json.Value

**JSON values**, as far as the interchange forms need them: of numbers only the natural
ones have a value, and strings that are no Unicode text are known to be strings and
nothing more.
-/

namespace SerialAta.Json

/-- A JSON value. -/
inductive Value
  /-- The literal `null`. -/
  | null
  /-- A truth value. -/
  | bool (b : Bool)
  /-- A number: its value, if it is written as a natural number of 64 bits. -/
  | number (n : Option Nat)
  /-- A string: its text, if its escapes make one. -/
  | string (text : Option String)
  /-- A list. -/
  | array (elements : List Value)
  /-- Keys and their values, in order; keys may repeat. -/
  | object (entries : List (Option String × Value))

instance : Inhabited Value := ⟨.null⟩

namespace Value

/-- A natural number. -/
def nat (n : Nat) : Value := .number (some n)

/-- A string of given text. -/
def text (s : String) : Value := .string (some s)

/-- An object of given keys and values. -/
def record (entries : List (String × Value)) : Value :=
  .object (entries.map fun (key, v) => (some key, v))

end Value

end SerialAta.Json
