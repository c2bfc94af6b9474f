import Telemetry.Json.Builder
import Telemetry.Json.Scanner
/-!
# JSON texts

Writing a document without any blank, and reading a text strictly: nothing may stand before or
after the document but blanks.
-/

namespace Telemetry.Json

/-- The characters of a document, without any blank. -/
def spelling (j : Json) : List Char :=
  j.tokens.flatMap Token.spelling

/-- The text of a document, without any blank between its tokens. -/
def render (j : Json) : String := String.ofList j.spelling

/-- The document of a text. -/
def parse? (text : String) : Option Json :=
  (tokens? text.toList).bind ofTokens?

end Telemetry.Json
