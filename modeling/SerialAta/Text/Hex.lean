/-!
# SerialAta.Text.Hex

Numbers as **hexadecimal text** of a fixed width, with lower-case digits. Link
words are shown with eight digits and FIS type bytes with two.
-/

namespace SerialAta.Hex

/-- The digit for `n` below sixteen; larger values have none of their own and
take the digit of their last four bits. -/
def digit (n : Nat) : Char :=
  let d := n % 16
  if d < 10 then Char.ofNat ('0'.toNat + d) else Char.ofNat ('a'.toNat + (d - 10))

/-- The last `width` hexadecimal digits of `n`, most significant first. -/
def digits : (width : Nat) → (n : Nat) → List Char
  | 0, _ => []
  | width + 1, n => digits width (n / 16) ++ [digit n]

@[simp] theorem length_digits (width n : Nat) : (digits width n).length = width := by
  induction width generalizing n with
  | zero => rfl
  | succ width ih => simp [digits, ih]

/-- `n` written with exactly `width` hexadecimal digits. -/
def fixed (width n : Nat) : String :=
  String.ofList (digits width n)

/-- A byte as it stands in messages: two digits after `0x`. -/
def byte (b : UInt8) : String :=
  "0x" ++ fixed 2 b.toNat

end SerialAta.Hex
