/-!
# SerialAta.Text.Parser

**Parsers** over a list of characters. A parser takes characters off the front of the
list or fails; it does not say why, since readers of settings and values only need to
know whether a text is well-formed.

`Parser.gather` is the one way to repeat. It runs at most once more than the whole text
has characters, so whatever takes a character each time is never cut short.
-/

namespace SerialAta

/-- A reader of the front of a list of characters. It knows the length of the whole
text. -/
abbrev Parser := ReaderT Nat (StateT (List Char) Option)

namespace Parser

/-- The next character, left in place; `none` at the end. -/
def peek? : Parser (Option Char) := do
  return (← get).head?

/-- Takes the next character. -/
def next : Parser Char := do
  match ← get with
  | [] => failure
  | c :: rest =>
    set rest
    return c

/-- Takes the character `c`. -/
def char (c : Char) : Parser Unit := do
  if (← next) = c then return else failure

/-- Takes the characters `cs`. -/
def chars : (cs : List Char) → Parser Unit
  | [] => return
  | c :: cs => do
    char c
    chars cs

/-- Takes `n` characters. -/
def take : (n : Nat) → Parser (List Char)
  | 0 => return []
  | n + 1 => do
    let c ← next
    return c :: (← take n)

/-- Takes the character `c` if it comes next, and tells whether it did. -/
def char? (c : Char) : Parser Bool := do
  if (← peek?) = some c then
    let _ ← next
    return true
  else return false

/-- Takes characters as long as they satisfy `p`. -/
def takeWhile (p : Char → Bool) : Parser (List Char) := do
  let cs ← get
  set (cs.dropWhile p)
  return cs.takeWhile p

/-- Takes one or more characters that satisfy `p`. -/
def takeWhile1 (p : Char → Bool) : Parser (List Char) := do
  let cs ← takeWhile p
  if cs.isEmpty then failure else return cs

/-- Succeeds at the end only. -/
def atEnd : Parser Unit := do
  if (← get).isEmpty then return else failure

/-- Repeats `step` while it asks for it, at most `n` times, and adds the results to what
has been found. -/
def gatherUpTo (step : Parser (List α × Bool)) (found : Array α) : (n : Nat) → Parser (List α)
  | 0 => failure
  | n + 1 => do
    let (more, again) ← step
    if again then gatherUpTo step (found ++ more) n else return (found ++ more).toList

/-- Repeats `step` while it asks for it, and joins the results. -/
def gather (step : Parser (List α × Bool)) : Parser (List α) := do
  gatherUpTo step #[] ((← read) + 1)

/-- Reads a whole text. -/
def parse? (p : Parser α) (text : List Char) : Option α :=
  match (p.run text.length).run text with
  | some (a, []) => some a
  | _ => none

end Parser

end SerialAta
