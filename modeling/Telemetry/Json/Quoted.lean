/-!
# Quoted texts

The characters between the quotes of a JSON text. Writing escapes the quote, the backslash and
the control characters, and nothing else. Reading takes any legal spelling: characters as they
are, two-character escapes, and escapes of four hexadecimal digits, where the code units of a
character beyond the first plane come as a pair.
-/

namespace Telemetry.Json

/-- Where a reader stands between the quotes of a text. -/
inductive Quoted.Phase where
  | plain
  | escape
  /-- Inside an escape in hexadecimal: `missing + 1` digits are to come, those read so far make up
    `value`. If the escape is the second one of a pair, `high` is the first code unit. -/
  | hex (high : Option Nat) (missing value : Nat)
  | pair (high : Nat)
  | pairEscape (high : Nat)
deriving DecidableEq, Repr

/-- The characters that were read, the last one first, and where the reader stands. -/
structure Quoted where
  read : List Char
  phase : Quoted.Phase
deriving DecidableEq, Repr

namespace Quoted

/-! ### Writing -/

/-- The escape of a control character that has no letter of its own. -/
def hexEscape (c : Char) : List Char :=
  ['\\', 'u', '0', '0', Nat.digitChar (c.toNat / 16), Nat.digitChar (c.toNat % 16)]

/-- The characters that are written for one. -/
def escape (c : Char) : List Char :=
  match c with
  | '"' => ['\\', '"']
  | '\\' => ['\\', '\\']
  | '\x08' => ['\\', 'b']
  | '\t' => ['\\', 't']
  | '\n' => ['\\', 'n']
  | '\x0c' => ['\\', 'f']
  | '\r' => ['\\', 'r']
  | c => if c.toNat < 0x20 then hexEscape c else [c]

/-- A text between quotes, escaped. -/
def spelling (text : List Char) : List Char :=
  '"' :: (text.flatMap escape ++ ['"'])

/-! ### Reading -/

/-- Behind the opening quote. -/
def start : Quoted := ⟨[], .plain⟩

/-- A character is complete. -/
def push (q : Quoted) (c : Char) : Quoted := ⟨c :: q.read, .plain⟩

/-- The character for which a backslash and a letter stand. -/
def letter? : Char → Option Char
  | '"' => some '"'
  | '\\' => some '\\'
  | '/' => some '/'
  | 'b' => some '\x08'
  | 'f' => some '\x0c'
  | 'n' => some '\n'
  | 'r' => some '\r'
  | 't' => some '\t'
  | _ => none

/-- The value of a hexadecimal digit of either case. -/
def hexDigit? (c : Char) : Option Nat :=
  if '0' ≤ c ∧ c ≤ '9' then some (c.toNat - '0'.toNat)
  else if 'a' ≤ c ∧ c ≤ 'f' then some (c.toNat - 'a'.toNat + 10)
  else if 'A' ≤ c ∧ c ≤ 'F' then some (c.toNat - 'A'.toNat + 10)
  else none

/-- The first unit of a surrogate pair. -/
abbrev IsHigh (unit : Nat) : Prop := 0xd800 ≤ unit ∧ unit < 0xdc00

/-- The second unit of a surrogate pair. -/
abbrev IsLow (unit : Nat) : Prop := 0xdc00 ≤ unit ∧ unit < 0xe000

/-- The character that a surrogate pair stands for. -/
def ofPair (high low : Nat) : Char :=
  Char.ofNat (0x10000 + (high - 0xd800) * 0x400 + (low - 0xdc00))

/-- The reader after a whole escape in hexadecimal. The first code unit of a pair waits for the
  second one; neither may stand alone. -/
def complete (q : Quoted) (high : Option Nat) (unit : Nat) : Option Quoted :=
  match high with
  | none =>
    if IsHigh unit then some { q with phase := .pair unit }
    else if IsLow unit then none
    else some (q.push (Char.ofNat unit))
  | some high => if IsLow unit then some (q.push (ofPair high unit)) else none

/-- Reads one character. A quote between two characters is not read here: it ends the text. -/
def step (q : Quoted) (c : Char) : Option Quoted :=
  match q.phase with
  | .plain =>
    if c = '\\' then some { q with phase := .escape }
    else if c.toNat < 0x20 then none
    else some (q.push c)
  | .escape =>
    if c = 'u' then some { q with phase := .hex none 3 0 } else (letter? c).map q.push
  | .hex high missing value => do
    let value := value * 16 + (← hexDigit? c)
    match missing with
    | 0 => q.complete high value
    | missing + 1 => some { q with phase := .hex high missing value }
  | .pair high => if c = '\\' then some { q with phase := .pairEscape high } else none
  | .pairEscape high => if c = 'u' then some { q with phase := .hex (some high) 3 0 } else none

end Quoted

end Telemetry.Json
