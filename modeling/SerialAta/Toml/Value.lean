/-!
# SerialAta.Toml.Value

**TOML values** and the rules for building tables out of keys.

A table remembers how it came about (`Toml.Origin`), for TOML allows each table to be
defined once only: a header may complete a table that a longer header implied, dotted
keys may complete a table that dotted keys began, and nothing may complete an inline
table.
-/

namespace SerialAta.Toml

/-- How a table came about. -/
inductive Origin
  /-- Written in braces. -/
  | inline
  /-- Named by a header. -/
  | header
  /-- On the way of a longer header. -/
  | implied
  /-- On the way of a dotted key. -/
  | dotted
  deriving DecidableEq, Repr

/-- A TOML value. Numbers with a fraction and times are kept as they are written. -/
inductive Value
  /-- A string. -/
  | string (text : String)
  /-- An integer of 64 bits. -/
  | integer (n : Int)
  /-- A floating point number. -/
  | float (literal : List Char)
  /-- True or false. -/
  | boolean (b : Bool)
  /-- A date, a time, or both. -/
  | datetime (literal : List Char)
  /-- A list in brackets. -/
  | array (elements : List Value)
  /-- A table. -/
  | table (origin : Origin) (entries : List (String × Value))
  /-- Tables named by headers in double brackets, the latest first. -/
  | tableArray (latestFirst : List (List (String × Value)))

/-- The entries of a table, in the order in which their keys first occur. -/
abbrev Table := List (String × Value)

namespace Table

/-- The table with the value of `key` replaced, or added if the key is new. -/
def put (t : Table) (key : String) (v : Value) : Table :=
  match t with
  | [] => [(key, v)]
  | (k, old) :: rest => if k = key then (key, v) :: rest else (k, old) :: put rest key v

/-- The table with `key` added, which must be new. -/
def addNew (t : Table) (key : String) (v : Value) : Option Table :=
  if (t.lookup key).isSome then none else some (t.put key v)

/-- The table with a value under a dotted key: `path` and then `key`. The tables on
the path are made if need be; one that is there must not have been finished by a header
or by braces, and the last one must have been made by a dotted key. -/
def addDotted (t : Table) (path : List String) (key : String) (v : Value) : Option Table :=
  match path with
  | [] => t.addNew key v
  | name :: names =>
    match t.lookup name with
    | none => do return t.put name (.table .dotted (← addDotted [] names key v))
    | some (.table origin inner) =>
      if origin = .dotted ∨ (origin = .implied ∧ names ≠ []) then do
        return t.put name (.table origin (← addDotted inner names key v))
      else none
    | some (.tableArray (latest :: earlier)) =>
      if names = [] then none
      else do return t.put name (.tableArray ((← addDotted latest names key v) :: earlier))
    | some _ => none

/-- The table with `f` applied to the table at the end of `path`, as headers follow
it: through tables but those in braces, through the latest of a table array, and through
new tables where nothing is. -/
def atPath (t : Table) (path : List String) (f : Table → Option Table) : Option Table :=
  match path with
  | [] => f t
  | name :: names =>
    match t.lookup name with
    | none => do return t.put name (.table .implied (← atPath [] names f))
    | some (.table .inline _) => none
    | some (.table origin inner) => do return t.put name (.table origin (← atPath inner names f))
    | some (.tableArray (latest :: earlier)) => do
      return t.put name (.tableArray ((← atPath latest names f) :: earlier))
    | some _ => none

/-- The table after a header `[name]` in it. -/
def openTable (t : Table) (name : String) : Option Table :=
  match t.lookup name with
  | none => some (t.put name (.table .header []))
  | some (.table .implied inner) => some (t.put name (.table .header inner))
  | some _ => none

/-- The table after a header `[[name]]` in it. -/
def openElement (t : Table) (name : String) : Option Table :=
  match t.lookup name with
  | none => some (t.put name (.tableArray [[]]))
  | some (.tableArray tables) => some (t.put name (.tableArray ([] :: tables)))
  | some _ => none

end Table

end SerialAta.Toml
