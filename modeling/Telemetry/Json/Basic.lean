/-!
# JSON documents

Documents, their numbers as written, and the tokens that spell them.
-/

namespace Telemetry

/-- A number as written: the digits of the whole part and of the fraction read as one number, how
  many of them belong to the fraction, and the exponent if one is given. -/
structure Json.Number where
  negative : Bool
  /-- All digits before the exponent, read as one number. -/
  coefficient : Nat
  places : Nat
  exponent : Option Int
deriving DecidableEq, Repr

/-- JSON documents. Objects keep all of their members in the order of writing. -/
inductive Json where
  | null
  | bool (b : Bool)
  | number (n : Json.Number)
  | string (s : String)
  | array (items : List Json)
  /-- Documents under names. A name may occur several times. -/
  | object (members : List (String × Json))

namespace Json

/-- The tokens of a JSON text. -/
inductive Token where
  | openBrace
  | closeBrace
  | openBracket
  | closeBracket
  | colon
  | comma
  | null
  | bool (b : Bool)
  | number (n : Number)
  | string (s : String)
deriving DecidableEq, Repr

mutual

/-- The tokens that spell a document. -/
def tokens : Json → List Token
  | null => [.null]
  | bool b => [.bool b]
  | number n => [.number n]
  | string s => [.string s]
  | array [] => [.openBracket, .closeBracket]
  | array (j :: items) => .openBracket :: (tokens j ++ (moreItems items ++ [.closeBracket]))
  | object [] => [.openBrace, .closeBrace]
  | object ((name, j) :: members) =>
    .openBrace :: .string name :: .colon :: (tokens j ++ (moreMembers members ++ [.closeBrace]))

/-- The tokens behind the first element of an array. -/
def moreItems : List Json → List Token
  | [] => []
  | j :: items => .comma :: (tokens j ++ moreItems items)

/-- The tokens behind the first member of an object. -/
def moreMembers : List (String × Json) → List Token
  | [] => []
  | (name, j) :: members => .comma :: .string name :: .colon :: (tokens j ++ moreMembers members)

end

end Json

end Telemetry
