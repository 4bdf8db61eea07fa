import SerialAta.Text.Digits
import SerialAta.Toml.Value
/-!
# SerialAta.Toml.Scalar

**Numbers, truth values, dates and times** of TOML, from the characters that write one.

A scalar is first cut out of the text as a run of characters, and then belongs to the one
kind whose form it has (`Scalar.ofLiteral?`). Underscores may stand between two digits of
a number. An integer has 64 bits, and a floating point number must not be too large for
one of 64 bits; a negative one may be.
-/

namespace SerialAta.Toml.Scalar

/-! ### Numbers -/

/-- Whether underscores stand between two digits each, in a run that follows the
character `before`. -/
def isSpaced (before : Char) : List Char → Bool
  | [] => before != '_'
  | c :: rest => !(before == '_' && c == '_') && isSpaced c rest

/-- The digits of a base from which a list starts, single underscores between them
left out, and what follows. There is at least one digit, and no underscore follows. -/
def digitRun? (base : Nat) (cs : List Char) : Option (List Char × List Char) :=
  let inRun (c : Char) : Bool := Digits.isDigit base c || c == '_'
  let run := cs.takeWhile inRun
  if isSpaced '_' run then some (run.filter (· != '_'), cs.dropWhile inRun) else none

/-- A sign, if there is one: whether it is a minus, and what follows. -/
def sign : List Char → Bool × List Char
  | '-' :: rest => (true, rest)
  | '+' :: rest => (false, rest)
  | rest => (false, rest)

/-- The digits of a decimal number from which a list starts, and what follows. A
zero stands alone. -/
def decimalRun? (cs : List Char) : Option (List Char × List Char) := do
  let (digits, rest) ← digitRun? 10 cs
  match digits with
  | '0' :: _ :: _ => none
  | _ => some (digits, rest)

/-- The integer of given digits and sign, if it fits into 64 bits. There is one more of
them below zero than above. -/
def integer64? (base : Nat) (negative : Bool) (digits : List Char) : Option Value := do
  let magnitude ← Digits.toNatBelow? base (Int64.minValue.toInt.natAbs + 1) digits
  let n : Int := if negative then -magnitude else magnitude
  if n ≤ Int64.maxValue.toInt then return .integer n else none

/-- A number in hexadecimal, octal or binary, after its mark. -/
def based? (base : Nat) (cs : List Char) : Option Value := do
  let (digits, rest) ← digitRun? base cs
  if rest.isEmpty then integer64? base false digits else none

/-- The number with which an exponent stops growing: digits after those that take it
there are passed over. -/
def exponentLimit : Nat := 0x10000

/-- The exponent of a floating point number, if there is one, and what follows. -/
def exponent? (cs : List Char) : Option (Int × List Char) :=
  match cs with
  | e :: rest =>
    if e = 'e' ∨ e = 'E' then do
      let (negative, rest) := sign rest
      let (digits, rest) ← digitRun? 10 rest
      let n : Int := Digits.toNatUpTo 10 exponentLimit digits
      return (if negative then -n else n, rest)
    else some (0, cs)
  | [] => some (0, [])

/-- The fraction of a floating point number, if there is one, and what follows. -/
def fraction? (cs : List Char) : Option (List Char × List Char) :=
  match cs with
  | '.' :: rest => digitRun? 10 rest
  | _ => some ([], cs)

/-- The middle between the largest number of 64-bit floating point and the next power of
two: the least number that is too large. -/
def floatLimit : Nat := Nat.pow 2 1024 - Nat.pow 2 970

/-- The number of decimal digits of `floatLimit`. -/
def floatLimitDigits : Nat := 309

/-- Whether a decimal number is too large for 64-bit floating point. The limit is whole,
so the digits before the point decide, and their number does if it is not that of the
limit. -/
def overflows (digits : List Char) (exponent : Int) : Bool :=
  let significant := digits.dropWhile (· == '0')
  let size := significant.length + exponent
  if significant.isEmpty || size < floatLimitDigits then false
  else if floatLimitDigits < size then true
  else
    let leading := significant.take floatLimitDigits
    floatLimit ≤
      Digits.toNat 10 (leading ++ List.replicate (floatLimitDigits - leading.length) '0')

/-- A decimal integer or a floating point number. -/
def decimal? (literal : List Char) : Option Value := do
  let (negative, rest) := sign literal
  if rest = ['i', 'n', 'f'] ∨ rest = ['n', 'a', 'n'] then
    return .float literal
  let (whole, rest) ← decimalRun? rest
  if rest.isEmpty then
    integer64? 10 negative whole
  else
    let (fraction, rest) ← fraction? rest
    let (exponent, rest) ← exponent? rest
    let tooLarge := !negative && overflows (whole ++ fraction) (exponent - fraction.length)
    if rest.isEmpty && !tooLarge then some (.float literal) else none

/-- A number in any notation. -/
def number? (literal : List Char) : Option Value :=
  match literal with
  | '0' :: 'x' :: rest => based? 16 rest
  | '0' :: 'o' :: rest => based? 8 rest
  | '0' :: 'b' :: rest => based? 2 rest
  | _ => decimal? literal

/-! ### Dates and times -/

/-- The number of two decimal digits, within bounds. -/
def twoDigits? (least greatest : Nat) (a b : Char) : Option Nat :=
  if Digits.isDigit 10 a && Digits.isDigit 10 b then
    let n := Digits.toNat 10 [a, b]
    if least ≤ n ∧ n ≤ greatest then some n else none
  else none

/-- The number of days of a month. -/
def daysIn (year month : Nat) : Nat :=
  let leap := year % 4 = 0 ∧ (year % 100 ≠ 0 ∨ year % 400 = 0)
  if month = 2 then (if leap then 29 else 28)
  else if month ∈ [4, 6, 9, 11] then 30
  else 31

/-- What follows a date, if a list starts with one. -/
def afterDate? : List Char → Option (List Char)
  | y1 :: y2 :: y3 :: y4 :: '-' :: m1 :: m2 :: '-' :: d1 :: d2 :: rest => do
    if [y1, y2, y3, y4].all (Digits.isDigit 10) then
      let month ← twoDigits? 1 12 m1 m2
      let _ ← twoDigits? 1 (daysIn (Digits.toNat 10 [y1, y2, y3, y4]) month) d1 d2
      return rest
    else none
  | _ => none

/-- What follows a time of day, if a list starts with one. A second may be a leap
second and have a fraction. -/
def afterTime? : List Char → Option (List Char)
  | h1 :: h2 :: ':' :: m1 :: m2 :: ':' :: s1 :: s2 :: rest => do
    let _ ← twoDigits? 0 23 h1 h2
    let _ ← twoDigits? 0 59 m1 m2
    let _ ← twoDigits? 0 60 s1 s2
    match rest with
    | '.' :: f :: more =>
      if Digits.isDigit 10 f then return more.dropWhile (Digits.isDigit 10) else none
    | _ => return rest
  | _ => none

/-- Whether a list is an offset from universal time, or nothing. -/
def isOffset : List Char → Bool
  | [] => true
  | [z] => z == 'Z' || z == 'z'
  | [s, h1, h2, ':', m1, m2] =>
    (s == '+' || s == '-') && (twoDigits? 0 23 h1 h2).isSome && (twoDigits? 0 59 m1 m2).isSome
  | _ => false

/-- Whether a list is a date, a time, or a date and a time with or without an
offset. -/
def isDatetime (literal : List Char) : Bool :=
  match afterDate? literal with
  | some [] => true
  | some (delimiter :: rest) =>
    (delimiter == 'T' || delimiter == 't' || delimiter == ' ') &&
      (afterTime? rest).any isOffset
  | none => afterTime? literal == some []

/-- The scalar that a run of characters writes. -/
def ofLiteral? (literal : List Char) : Option Value :=
  if literal = ['t', 'r', 'u', 'e'] then some (.boolean true)
  else if literal = ['f', 'a', 'l', 's', 'e'] then some (.boolean false)
  else if isDatetime literal then some (.datetime literal)
  else number? literal

end SerialAta.Toml.Scalar
