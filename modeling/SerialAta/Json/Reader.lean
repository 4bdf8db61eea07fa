import SerialAta.Json.Value
import SerialAta.Text.Digits
import SerialAta.Text.Parser
/-!
# SerialAta.Json.Reader

The **JSON reader**: from a text to its value (`Json.read?`).

A number is a natural number only if it is written without sign, fraction and exponent and
has no more than 64 bits.
A string is text only if the surrogates among its escapes come in pairs.
-/

namespace SerialAta.Json

open SerialAta.Parser

/-- Takes blanks. -/
def blanks : Parser Unit := do
  let _ ← takeWhile fun c => c ∈ [' ', '\t', '\n', '\r']

/-- Takes the four hexadecimal digits of an escape. -/
def codeUnit : Parser Nat := do
  let digits ← take 4
  if digits.all (Digits.isDigit 16) then return Digits.toNat 16 digits else failure

/-- Takes the second half of a pair of surrogates, and gives the character of the
pair. -/
def secondHalf (first : Nat) : Parser Char := do
  char '\\'
  char 'u'
  let second ← codeUnit
  if 0xDC00 ≤ second ∧ second < 0xE000 then
    return Char.ofNat (0x10000 + (first - 0xD800) * 0x400 + (second - 0xDC00))
  else failure

/-- Takes an escape after its backslash. A surrogate without its partner stands for no
character. -/
def escape : Parser (Option Char) := do
  match ← next with
  | '"' => return some '"'
  | '\\' => return some '\\'
  | '/' => return some '/'
  | 'b' => return some '\x08'
  | 'f' => return some '\x0c'
  | 'n' => return some '\n'
  | 'r' => return some '\r'
  | 't' => return some '\t'
  | 'u' =>
    let unit ← codeUnit
    if unit < 0xD800 ∨ 0xE000 ≤ unit then return some (Char.ofNat unit)
    else if unit < 0xDC00 then some <$> secondHalf unit <|> pure none
    else return none
  | _ => failure

/-- Takes a string, and gives its text if it has one. -/
def string : Parser (Option String) := do
  char '"'
  let chars ← gather do
    match ← next with
    | '"' => return ([], false)
    | '\\' => return ([← escape], true)
    | c => if c < ' ' then failure else return ([some c], true)
  return (chars.mapM id).map String.ofList

/-- Takes the digits of a fraction or an exponent. -/
def digits : Parser (List Char) := takeWhile1 (Digits.isDigit 10)

/-- Takes a number. -/
def number : Parser Value := do
  let negative ← char? '-'
  let whole ← digits
  if whole.length ≠ 1 ∧ whole.head? = some '0' then failure
  let fraction ← char? '.'
  if fraction then
    let _ ← digits
  let exponent := (← peek?) ∈ [some 'e', some 'E']
  if exponent then
    let _ ← next
    if (← peek?) ∈ [some '+', some '-'] then
      let _ ← next
    let _ ← digits
  let plain := !negative && !fraction && !exponent
  return .number (if plain then Digits.toNatBelow? 10 UInt64.size whole else none)

/-- Takes the elements of a list after its bracket. -/
def elements (element : Parser Value) : Parser (List Value) := do
  blanks
  if ← char? ']' then return []
  gather do
    let v ← element
    if ← char? ',' then return ([v], true)
    char ']'
    return ([v], false)

/-- Takes the entries of an object after its brace. -/
def entries (element : Parser Value) : Parser (List (Option String × Value)) := do
  blanks
  if ← char? '}' then return []
  gather do
    blanks
    let key ← string
    blanks
    char ':'
    let v ← element
    if ← char? ',' then return ([(key, v)], true)
    char '}'
    return ([(key, v)], false)

/-- Takes a value, with the blanks around it, in which brackets and braces nest at most
`levels` deep. -/
def value : (levels : Nat) → Parser Value
  | 0 => failure
  | levels + 1 => do
    blanks
    let v ← match ← peek? with
      | some '"' => .string <$> string
      | some '[' => do
        char '['
        .array <$> elements (value levels)
      | some '{' => do
        char '{'
        .object <$> entries (value levels)
      | some 'n' => do
        chars ['n', 'u', 'l', 'l']
        pure .null
      | some 't' => do
        chars ['t', 'r', 'u', 'e']
        pure (.bool true)
      | some 'f' => do
        chars ['f', 'a', 'l', 's', 'e']
        pure (.bool false)
      | _ => number
    blanks
    return v

/-- The value of a text, if the text is JSON. A text nests no deeper than it is
long. -/
def read? (text : String) : Option Value :=
  let cs := text.toList
  Parser.parse? (value (cs.length + 1)) cs

end SerialAta.Json
