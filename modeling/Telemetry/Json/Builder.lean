import Telemetry.Json.Basic
/-!
# From tokens to documents

A builder reads tokens one by one and grows a document. What it holds is the path of unfinished
arrays and objects, and what it expects next.
-/

namespace Telemetry.Json

/-- An unfinished array or object, one of whose parts is being read. -/
inductive Frame where
  | array (before : List Json)
  /-- An object with the members before the current one, the newest one first, and the name of the
    current member. -/
  | object (before : List (String × Json)) (name : String)

/-- What a builder holds and expects. The unfinished parts come innermost first. -/
inductive Builder where
  | document (path : List Frame)
  | firstItem (path : List Frame)
  | firstMember (path : List Frame)
  | member (before : List (String × Json)) (path : List Frame)
  | colon (before : List (String × Json)) (name : String) (path : List Frame)
  | complete (j : Json) (path : List Frame)

namespace Builder

/-- Nothing has been read. -/
def start : Builder := .document []

/-- Reads the first token of a document. -/
def enter (path : List Frame) : Token → Option Builder
  | .null => some (.complete .null path)
  | .bool b => some (.complete (.bool b) path)
  | .number n => some (.complete (.number n) path)
  | .string s => some (.complete (.string s) path)
  | .openBracket => some (.firstItem path)
  | .openBrace => some (.firstMember path)
  | _ => none

/-- The builder behind one more token, unless the token cannot stand there. -/
def step : Builder → Token → Option Builder
  | document path, t => enter path t
  | firstItem path, .closeBracket => some (.complete (.array []) path)
  | firstItem path, t => enter (.array [] :: path) t
  | firstMember path, .closeBrace => some (.complete (.object []) path)
  | firstMember path, .string name => some (.colon [] name path)
  | member before path, .string name => some (.colon before name path)
  | colon before name path, .colon => some (.document (.object before name :: path))
  | complete j (.array before :: path), .comma => some (.document (.array (j :: before) :: path))
  | complete j (.array before :: path), .closeBracket =>
    some (.complete (.array (j :: before).reverse) path)
  | complete j (.object before name :: path), .comma => some (.member ((name, j) :: before) path)
  | complete j (.object before name :: path), .closeBrace =>
    some (.complete (.object ((name, j) :: before).reverse) path)
  | _, _ => none

/-- The builder behind several tokens. -/
def run (b : Builder) (ts : List Token) : Option Builder :=
  ts.foldlM step b

/-- The document, if it is complete and nothing around it is unfinished. -/
def finish : Builder → Option Json
  | complete j [] => some j
  | _ => none

end Builder

/-- The document that a list of tokens spells. -/
def ofTokens? (ts : List Token) : Option Json :=
  (Builder.start.run ts).bind Builder.finish

end Telemetry.Json
