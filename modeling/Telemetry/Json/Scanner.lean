import Telemetry.Json.Numeral
import Telemetry.Json.Quoted
/-!
# From characters to tokens

A scanner reads a text character by character and collects its tokens. Blanks may stand between
any two tokens; a number ends at the first character that cannot belong to one.

## Design notes

The scanner is a machine with one step for each character, so reading a text piece by piece is
reading it at once. Numbers are collected as characters and understood as a whole when they end.
-/

namespace Telemetry.Json

/-- The characters of a token. -/
def Token.spelling : Token → List Char
  | openBrace => ['\x7b']
  | closeBrace => ['\x7d']
  | openBracket => ['[']
  | closeBracket => [']']
  | colon => [':']
  | comma => [',']
  | null => ['n', 'u', 'l', 'l']
  | bool true => ['t', 'r', 'u', 'e']
  | bool false => ['f', 'a', 'l', 's', 'e']
  | number n => n.spelling
  | string s => Quoted.spelling s.toList

/-- Blanks are the space, the tab, the line feed and the carriage return. -/
abbrev IsBlank (c : Char) : Prop := c = ' ' ∨ c = '\t' ∨ c = '\n' ∨ c = '\r'

/-- The characters that numbers are made of. -/
abbrev IsNumeric (c : Char) : Prop :=
  c.isDigit = true ∨ c = '-' ∨ c = '+' ∨ c = '.' ∨ c = 'e' ∨ c = 'E'

/-- What a scanner is reading. -/
inductive Scanner.Mode where
  | between
  /-- A literal, of which the given letters are still to come. -/
  | word (next : Char) (rest : List Char) (token : Token)
  /-- A number, of which the given characters are read, the newest one first. -/
  | number (read : List Char)
  | quoted (q : Quoted)
deriving DecidableEq, Repr

/-- The tokens that were read, the last one first, and what is being read. -/
structure Scanner where
  read : List Token
  mode : Scanner.Mode
deriving DecidableEq, Repr

namespace Scanner

/-- Nothing has been read. -/
def start : Scanner := ⟨[], .between⟩

/-- A token is complete. -/
def push (read : List Token) (t : Token) : Scanner := ⟨t :: read, .between⟩

/-- Reads a character between two tokens. -/
def first (read : List Token) (c : Char) : Option Scanner :=
  if IsBlank c then some ⟨read, .between⟩
  else if IsNumeric c then some ⟨read, .number [c]⟩
  else
    match c with
    | '\x7b' => some (push read .openBrace)
    | '\x7d' => some (push read .closeBrace)
    | '[' => some (push read .openBracket)
    | ']' => some (push read .closeBracket)
    | ':' => some (push read .colon)
    | ',' => some (push read .comma)
    | '"' => some ⟨read, .quoted .start⟩
    | 'n' => some ⟨read, .word 'u' ['l', 'l'] .null⟩
    | 't' => some ⟨read, .word 'r' ['u', 'e'] (.bool true)⟩
    | 'f' => some ⟨read, .word 'a' ['l', 's', 'e'] (.bool false)⟩
    | _ => none

/-- Reads one character. -/
def step (s : Scanner) (c : Char) : Option Scanner :=
  match s.mode with
  | .between => first s.read c
  | .word next rest token =>
    if c = next then
      match rest with
      | [] => some (push s.read token)
      | next :: rest => some { s with mode := .word next rest token }
    else none
  | .number read =>
    -- The character that ends a number belongs to what follows it.
    if IsNumeric c then some { s with mode := .number (c :: read) }
    else (Number.ofSpelling? read.reverse).bind fun n => first (.number n :: s.read) c
  | .quoted q =>
    if q.phase = .plain ∧ c = '"' then some (push s.read (.string (String.ofList q.read.reverse)))
    else (q.step c).map fun q => { s with mode := .quoted q }

/-- The tokens of a text that ends here. A number ends with it; words and quoted texts must have
  ended before. -/
def finish (s : Scanner) : Option (List Token) :=
  match s.mode with
  | .between => some s.read.reverse
  | .number read => (Number.ofSpelling? read.reverse).map fun n => (.number n :: s.read).reverse
  | .word .. => none
  | .quoted _ => none

/-- The scanner behind several characters. -/
def run (s : Scanner) (text : List Char) : Option Scanner :=
  text.foldlM step s

end Scanner

/-- The tokens of a text. -/
def tokens? (text : List Char) : Option (List Token) :=
  (Scanner.start.run text).bind Scanner.finish

end Telemetry.Json
