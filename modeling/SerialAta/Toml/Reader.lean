import SerialAta.Text.Parser
import SerialAta.Toml.Scalar
/-!
# SerialAta.Toml.Reader

The **TOML reader**: from a text to its table (`Toml.read?`), for version 1.0 of the
language.

The text is a sequence of lines, each a header, a key with its value, or neither, and
each may end in a comment. Values nest in brackets and braces less than eighty deep, and
a dotted key has less than eighty parts.
-/

namespace SerialAta.Toml

open SerialAta.Parser

/-- The most brackets and braces around a value, and the most parts of a key. -/
def nestingLimit : Nat := 79

/-! ### Blanks -/

/-- Spaces and tabs. -/
def isBlank (c : Char) : Bool := c == ' ' || c == '\t'

/-- The characters of a comment: no control characters but the tab. -/
def isText (c : Char) : Bool := c == '\t' || (' ' ≤ c && c != '\x7f')

/-- Takes spaces and tabs. -/
def blanks : Parser Unit := do
  let _ ← takeWhile isBlank

/-- Takes the end of a line. A carriage return belongs to it only before a line
feed. -/
def newline : Parser Unit := do
  match ← next with
  | '\n' => return
  | '\r' => char '\n'
  | _ => failure

/-- Takes a comment, if there is one, up to the end of its line. -/
def comment : Parser Unit := do
  if ← char? '#' then
    let _ ← takeWhile isText

/-- Takes the rest of a line on which all has been said. -/
def lineEnd : Parser Unit := do
  blanks
  comment
  atEnd <|> newline

/-- Takes what may stand between the parts of an array: blanks, comments and ends of
lines. -/
def blankLines : Parser Unit := do
  let step : Parser (List Unit × Bool) := do
    blanks
    comment
    match ← peek? with
    | some '\n' | some '\r' =>
      newline
      return ([], true)
    | _ => return ([], false)
  let _ ← gather step

/-! ### Strings -/

/-- Takes the number of a character, in `n` hexadecimal digits. -/
def numberedChar (n : Nat) : Parser Char := do
  let digits ← take n
  let code := Digits.toNat 16 digits
  if digits.all (Digits.isDigit 16) ∧ code.isValidChar then return Char.ofNat code else failure

/-- Takes an escape after its backslash. -/
def escape : Parser Char := do
  match ← next with
  | 'b' => return '\x08'
  | 't' => return '\t'
  | 'n' => return '\n'
  | 'f' => return '\x0c'
  | 'r' => return '\r'
  | '"' => return '"'
  | '\\' => return '\\'
  | 'u' => numberedChar 4
  | 'U' => numberedChar 8
  | _ => failure

/-- The rest of a string in double quotes, after the first quote. -/
def basicString : Parser (List Char) :=
  gather do
    match ← next with
    | '"' => return ([], false)
    | '\\' => return ([← escape], true)
    | c => if isText c then return ([c], true) else failure

/-- The rest of a string in single quotes, after the first quote. Nothing is escaped
in it. -/
def literalString : Parser (List Char) :=
  gather do
    match ← next with
    | '\x27' => return ([], false)
    | c => if isText c then return ([c], true) else failure

/-- A run of quotes in a string over several lines. Three of them end the string,
and up to two more before those belong to it. -/
def quotes (quote : Char) : Parser (List Char × Bool) := do
  let run ← takeWhile (· == quote)
  if run.length < 3 then return (run, true)
  else if run.length ≤ 5 then return (run.drop 3, false)
  else failure

/-- Takes a line feed of a string over several lines, as which a carriage return and
a line feed count too. -/
def lineFeed : Parser (List Char × Bool) := do
  newline
  return (['\n'], true)

/-- Takes blanks up to the end of the line and all blanks and ends of lines after
it: a backslash at the end of a line joins the lines. -/
def lineJoin : Parser Unit := do
  blanks
  newline
  let step : Parser (List Unit × Bool) := do
    blanks
    match ← peek? with
    | some '\n' | some '\r' =>
      newline
      return ([], true)
    | _ => return ([], false)
  let _ ← gather step

/-- The rest of a string in three double quotes, after the first three. -/
def basicText : Parser (List Char) :=
  gather do
    match ← peek? with
    | some '"' => quotes '"'
    | some '\n' | some '\r' => lineFeed
    | some '\\' =>
      char '\\'
      (do lineJoin; return ([], true)) <|> (do return ([← escape], true))
    | _ =>
      let c ← next
      if isText c then return ([c], true) else failure

/-- The rest of a string in three single quotes, after the first three. -/
def literalText : Parser (List Char) :=
  gather do
    match ← peek? with
    | some '\x27' => quotes '\x27'
    | some '\n' | some '\r' => lineFeed
    | _ =>
      let c ← next
      if isText c then return ([c], true) else failure

/-- A string of one of the four kinds. A line feed right after three quotes does not
count. -/
def string : Parser String := do
  let quote ← next
  let lines := if quote = '"' then basicText else literalText
  let line := if quote = '"' then basicString else literalString
  let many := do
    char quote
    char quote
    newline <|> pure ()
    lines
  return String.ofList (← many <|> line)

/-! ### Keys -/

/-- The characters of a key without quotes. -/
def isKeyChar (c : Char) : Bool := c.isAlphanum || c == '_' || c == '-'

/-- One part of a key. -/
def keyPart : Parser String := do
  match ← peek? with
  | some '"' =>
    char '"'
    return String.ofList (← basicString)
  | some '\x27' =>
    char '\x27'
    return String.ofList (← literalString)
  | _ => return String.ofList (← takeWhile1 isKeyChar)

/-- A key: its parts between points, with the last one apart. Blanks may stand around
each part. -/
def key : Parser (List String × String) := do
  let step : Parser (List String × Bool) := do
    blanks
    let part ← keyPart
    blanks
    return ([part], ← char? '.')
  let parts ← gather step
  match parts.getLast? with
  | some last => if parts.length ≤ nestingLimit then return (parts.dropLast, last) else failure
  | none => failure

/-! ### Values -/

/-- The characters that end a number, a truth value, a date or a time. -/
def endsScalar (c : Char) : Bool :=
  isBlank c || c ∈ ['\n', '\r', ',', ']', '}', '#']

/-- Takes a number, a truth value, a date or a time. A date may have a blank before
its time. -/
def scalar : Parser Value := do
  let first ← takeWhile1 fun c => !endsScalar c
  let more : Parser (List Char) := do
    if Scalar.afterDate? first = some [] then
      char ' '
      match ← peek? with
      | some d => if d.isDigit then takeWhile1 fun c => !endsScalar c else failure
      | none => failure
    else failure
  let literal ← (do return first ++ ' ' :: (← more)) <|> pure first
  match Scalar.ofLiteral? literal with
  | some v => return v
  | none => failure

/-- Takes the elements of an array after its bracket. -/
def elements (element : Parser Value) : Parser (List Value) :=
  gather do
    blankLines
    if ← char? ']' then return ([], false)
    let v ← element
    blankLines
    if ← char? ',' then return ([v], true)
    char ']'
    return ([v], false)

/-- Takes one key and its value. -/
def entry (element : Parser Value) : Parser ((List String × String) × Value) := do
  let k ← key
  char '='
  blanks
  return (k, ← element)

/-- Takes the entries of an inline table after its brace. -/
def inlineEntries (element : Parser Value) : Parser (List ((List String × String) × Value)) := do
  blanks
  if ← char? '}' then return []
  gather do
    let e ← entry element
    blanks
    if ← char? ',' then return ([e], true)
    char '}'
    return ([e], false)

/-- The table of entries that are given one after the other. -/
def tableOf? (entries : List ((List String × String) × Value)) : Option Table :=
  entries.foldlM (fun t ((path, name), v) => t.addDotted path name v) []

/-- Takes a value within which brackets and braces nest at most `levels` deep. -/
def value : (levels : Nat) → Parser Value
  | 0 => simple
  | levels + 1 => do
    match ← peek? with
    | some '[' =>
      char '['
      return .array (← elements (value levels))
    | some '{' =>
      char '{'
      match tableOf? (← inlineEntries (value levels)) with
      | some t => return .table .inline t
      | none => failure
    | _ => simple
where
  /-- Takes a value without brackets and braces. -/
  simple : Parser Value := do
    match ← peek? with
    | some '"' | some '\x27' => return .string (← string)
    | _ => scalar

/-! ### Documents -/

/-- One line of a document. -/
inductive Line
  /-- A blank line. -/
  | blank
  /-- A header of a table. -/
  | header (path : List String) (name : String)
  /-- A header of an element of a table array. -/
  | elementHeader (path : List String) (name : String)
  /-- A key and its value. -/
  | entry (path : List String) (name : String) (v : Value)

/-- Takes a line, or what is left of it after its first blanks. -/
def line : Parser Line := do
  match ← peek? with
  | none | some '#' | some '\n' | some '\r' =>
    lineEnd
    return .blank
  | some '[' =>
    char '['
    let element ← char? '['
    let (path, name) ← key
    char ']'
    if element then char ']'
    lineEnd
    return if element then .elementHeader path name else .header path name
  | _ =>
    let ((path, name), v) ← entry (value nestingLimit)
    lineEnd
    return .entry path name v

/-- Takes all lines of a document. -/
def lines : Parser (List Line) := do
  let _ ← char? '\ufeff'
  gather do
    blanks
    if (← peek?).isNone then return ([], false)
    return ([← line], true)

/-- A document as far as it has been read: its table and the path of the table that
keys belong to. -/
structure Document where
  /-- The table of the document. -/
  root : Table
  /-- The path of the latest header. -/
  current : List String

/-- The document with one more line. -/
def Document.add (d : Document) : Line → Option Document
  | .blank => some d
  | .header path name => do
    return { root := ← d.root.atPath path (·.openTable name), current := path ++ [name] }
  | .elementHeader path name => do
    return { root := ← d.root.atPath path (·.openElement name), current := path ++ [name] }
  | .entry path name v => do
    return { d with root := ← d.root.atPath d.current (·.addDotted path name v) }

/-- The table of a text, if the text is TOML. -/
def read? (text : String) : Option Table := do
  let lines ← Parser.parse? lines text.toList
  let d ← lines.foldlM Document.add { root := [], current := [] }
  return d.root

end SerialAta.Toml
