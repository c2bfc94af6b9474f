import Telemetry.Power
/-!
# Decimal digits as characters

The spellings shared by all decimal renderings: a whole number, a number with a fixed count of
places, and one whose fraction carries no superfluous zero.
-/

namespace Telemetry.Decimal

/-- The last `places` decimal digits of `n`, zeros included. -/
def lowDigits : Nat → Nat → List Char
  | 0, _ => []
  | places + 1, n => Nat.digitChar (n / 10 ^ places % 10) :: lowDigits places n

/-- The minus of a negative number. -/
def sign (negative : Bool) : List Char :=
  if negative then ['-'] else []

/-- An integer in base ten. -/
def integer (n : Int) : List Char :=
  sign (decide (n < 0)) ++ Nat.toDigits 10 n.natAbs

/-- A point before a fraction. An empty fraction has none. -/
def pointed : List Char → List Char
  | [] => []
  | digits => '.' :: digits

/-- The number `n / 10 ^ places` in positional form, with exactly `places` digits after the point. -/
def positional (places n : Nat) : List Char :=
  Nat.toDigits 10 (n / 10 ^ places) ++ pointed (lowDigits places n)

/-- A text without the copies of a character at its end. -/
def withoutTrailing (c : Char) (text : List Char) : List Char :=
  (text.reverse.dropWhile (· = c)).reverse

/-- A text without the zeros at the end of its fraction, and without its point if no digit is left
  behind it. The zeros of a whole number stay. -/
def trimFraction (text : List Char) : List Char :=
  if '.' ∈ text then withoutTrailing '.' (withoutTrailing '0' text) else text

/-! ### Reading integers -/

/-- The natural number that a text of digits spells. -/
def natural? (text : List Char) : Option Nat :=
  if text ≠ [] ∧ text.all Char.isDigit = true then some (Nat.ofDigitChars 10 text 0) else none

/-- The integer that a text spells: digits, with or without a sign before them. -/
def integer? : List Char → Option Int
  | '-' :: rest => (natural? rest).map fun (n : Nat) => -(n : Int)
  | '+' :: rest => (natural? rest).map fun (n : Nat) => (n : Int)
  | text => (natural? text).map fun (n : Nat) => (n : Int)

end Telemetry.Decimal
