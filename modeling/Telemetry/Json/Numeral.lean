import Telemetry.Decimal.Digits
import Telemetry.Decimal.Scaled
import Telemetry.Decimal.Shortest
import Telemetry.Json.Basic
/-!
# JSON numerals

The spelling of a number, in both directions, and what a number means as an integer or as a
double. A whole part has no leading zero, a fraction and an exponent have at least one digit.

## Design notes

A double is written with the fewest digits to which it is the nearest one. It is written
positionally, and with a fraction, when the exponent of its first digit lies between `-5` and
`15`, and with a signed exponent otherwise. Minus zero is not an integer: it is written like one,
but it is the double.

Numbers are read as doubles in double arithmetic. With many digits or a great exponent the result
may be a neighbour of the nearest double, so a double need not be read from its own spelling.
-/

namespace Telemetry.Json.Number

/-! ### Spelling -/

/-- The spelling of an exponent, with a sign and without padding. -/
def exponentSpelling : Option Int → List Char
  | none => []
  | some e => 'e' :: (if e < 0 then '-' else '+') :: Nat.toDigits 10 e.natAbs

/-- The characters of a number as it was written. -/
def spelling (n : Number) : List Char :=
  Decimal.sign n.negative ++ Decimal.positional n.places n.coefficient ++
    exponentSpelling n.exponent

/-- The digits at the start of a text, if there are any, and the rest of it. -/
def digits? (text : List Char) : Option (List Char × List Char) :=
  match text.takeWhile Char.isDigit with
  | [] => none
  | digits => some (digits, text.dropWhile Char.isDigit)

/-- A whole part at the start of a text: a zero alone, or digits that do not start with a zero. -/
def whole? (text : List Char) : Option (List Char × List Char) :=
  (digits? text).filter fun read => read.1 = ['0'] ∨ read.1.head? ≠ some '0'

/-- The digits of a fraction at the start of a text. A text without a point has an empty one. -/
def fraction? : List Char → Option (List Char × List Char)
  | '.' :: rest => digits? rest
  | text => some ([], text)

/-- The digits of an exponent, and nothing behind them. -/
def magnitude? (text : List Char) : Option Nat :=
  match digits? text with
  | some (digits, []) => some (Nat.ofDigitChars 10 digits 0)
  | _ => none

/-- An exponent that fills a text after its mark. -/
def signedExponent? : List Char → Option Int
  | '-' :: rest => (magnitude? rest).map fun e => -(e : Int)
  | '+' :: rest => (magnitude? rest).map fun e => (e : Int)
  | rest => (magnitude? rest).map fun e => (e : Int)

/-- An exponent behind its mark, which may be of either case. Nothing at all is no exponent. -/
def exponent? : List Char → Option (Option Int)
  | [] => some none
  | 'e' :: rest => (signedExponent? rest).map some
  | 'E' :: rest => (signedExponent? rest).map some
  | _ => none

/-- A number behind its sign. -/
def unsigned? (negative : Bool) (text : List Char) : Option Number := do
  let (whole, rest) ← whole? text
  let (fraction, rest) ← fraction? rest
  let exponent ← exponent? rest
  return ⟨negative, Nat.ofDigitChars 10 (whole ++ fraction) 0, fraction.length, exponent⟩

/-- The number that a text spells. -/
def ofSpelling? : List Char → Option Number
  | '-' :: rest => unsigned? true rest
  | text => unsigned? false text

/-! ### Meaning -/

/-- The integer as which a number is written. A fraction, an exponent or a minus before a zero make
  it something else. -/
def integer? (n : Number) : Option Int :=
  if n.places = 0 ∧ n.exponent = none ∧ ¬ (n.negative = true ∧ n.coefficient = 0) then
    some (if n.negative = true then -n.coefficient else n.coefficient)
  else none

/-- The digits and the exponent of a number with as many digits as a word of 64 bits has room for:
  first the whole part loses digits from its end, then the fraction does. -/
def wordDecimal (n : Number) : Decimal :=
  let whole := Decimal.fitWord ⟨n.coefficient / 10 ^ n.places, 0⟩
  -- The fraction follows what is left of the whole part, even if that has lost digits.
  let coefficient := whole.coefficient * 10 ^ n.places + n.coefficient % 10 ^ n.places
  Decimal.fitWord ⟨coefficient, n.exponent.getD 0 + whole.exponent - n.places⟩

/-- The double as which a number is read, or `none` when it overflows. -/
def double? (n : Number) : Option Binary64 :=
  Binary64.scaled? n.negative n.wordDecimal

/-! ### Writing values -/

/-- The number as which an integer is written. -/
def ofInt (n : Int) : Number :=
  ⟨decide (n < 0), n.natAbs, 0, none⟩

/-- The layout of a positive decimal: positional when its first digit has an exponent between
  `-5` and `15`, scientific otherwise. -/
def ofDecimal (negative : Bool) (d : Decimal) : Number :=
  -- The exponent of the first digit.
  let e := d.exponent + Decimal.digitCount d.coefficient - 1
  if e < -5 ∨ 15 < e then
    ⟨negative, d.coefficient, Decimal.digitCount d.coefficient - 1, some e⟩
  else if d.exponent < 0 then ⟨negative, d.coefficient, d.exponent.natAbs, none⟩
  -- A whole number is padded up to its last digit and gets a zero as its fraction.
  else ⟨negative, d.coefficient * 10 ^ (d.exponent.toNat + 1), 1, none⟩

/-- The number as which a finite double is written. -/
def ofDouble (x : Binary64) : Number :=
  if x.IsZero then ⟨x.negative, 0, 1, none⟩ else ofDecimal x.negative x.shortest

end Telemetry.Json.Number
