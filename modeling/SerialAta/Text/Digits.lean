/-!
# SerialAta.Text.Digits

**Digits** of numbers in base two to sixteen, and the number that a run of them writes:
as it is (`Digits.toNat`), or without ever computing a number far beyond what is asked for
(`Digits.toNatBelow?`, `Digits.toNatUpTo`).
-/

namespace SerialAta.Digits

/-- The value of a digit in any base up to sixteen. -/
def value? (c : Char) : Option Nat :=
  if '0' ≤ c ∧ c ≤ '9' then some (c.toNat - '0'.toNat)
  else if 'a' ≤ c ∧ c ≤ 'f' then some (c.toNat - 'a'.toNat + 10)
  else if 'A' ≤ c ∧ c ≤ 'F' then some (c.toNat - 'A'.toNat + 10)
  else none

/-- Whether a character is a digit of the base. -/
def isDigit (base : Nat) (c : Char) : Bool :=
  match value? c with
  | some v => v < base
  | none => false

/-- A number with one more digit behind it. -/
def push (base n : Nat) (c : Char) : Nat := n * base + (value? c).getD 0

/-- The number that digits of a base write, most significant first. -/
def toNat (base : Nat) (digits : List Char) : Nat :=
  digits.foldl (push base) 0

/-- The number that digits of a base write, if it is below `bound`. Reading stops with
the digit that takes it there. -/
def toNatBelow? (base bound : Nat) (digits : List Char) : Option Nat :=
  digits.foldlM (fun n c => if push base n c < bound then some (push base n c) else none) 0

/-- The number that the first digits of a base write: digits do not count any more once
the number has reached `limit`. -/
def toNatUpTo (base limit : Nat) (digits : List Char) : Nat :=
  digits.foldl (fun n c => if n < limit then push base n c else n) 0

end SerialAta.Digits
