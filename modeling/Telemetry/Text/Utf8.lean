/-!
# UTF-8

Encoding of characters, and decoding of arbitrary octets that never fails: every maximal
ill-formed subpart becomes one replacement character.

## Design notes

The decoder reads one octet at a time. Which octets may follow is part of its state, so that a
sequence is abandoned at the first octet that no well-formed sequence has at that position. The
abandoned octets give one replacement, and the offending octet is read again from the ground.
-/

namespace Telemetry.Utf8

/-- The octets of a text. -/
def encode (text : List Char) : List UInt8 :=
  text.flatMap String.utf8EncodeChar

/-- The character that stands for an ill-formed subpart. -/
def replacement : Char := '\ufffd'

/-- What a decoder has read of an unfinished sequence. -/
inductive State where
  | ground
  /-- Inside a sequence: `owed + 1` octets are missing, the next one lies between `least` and
    `greatest`, and the payload bits read so far make up `bits`. -/
  | inside (owed : Nat) (least greatest : UInt8) (bits : Nat)
deriving DecidableEq, Repr

/-- What the first octet of a sequence comes to, and which octets may follow it. -/
def start (b : UInt8) : List Char × State :=
  if b < 0x80 then ([Char.ofNat b.toNat], .ground)
  -- Continuation octets start nothing, and `c0` and `c1` only overlong forms.
  else if b < 0xc2 then ([replacement], .ground)
  else if b < 0xe0 then ([], .inside 0 0x80 0xbf (b.toNat - 0xc0))
  -- Behind `e0` a second octet below `a0` would be overlong, behind `ed` one above `9f` would
  -- make a surrogate.
  else if b = 0xe0 then ([], .inside 1 0xa0 0xbf 0)
  else if b = 0xed then ([], .inside 1 0x80 0x9f 0xd)
  else if b < 0xf0 then ([], .inside 1 0x80 0xbf (b.toNat - 0xe0))
  -- Behind `f0` a second octet below `90` would be overlong, behind `f4` one above `8f` would
  -- leave the range of characters.
  else if b = 0xf0 then ([], .inside 2 0x90 0xbf 0)
  else if b < 0xf4 then ([], .inside 2 0x80 0xbf (b.toNat - 0xf0))
  else if b = 0xf4 then ([], .inside 2 0x80 0x8f 4)
  else ([replacement], .ground)

/-- Reads one octet: the characters that it completes, and what is left unfinished. -/
def State.step : State → UInt8 → List Char × State
  | .ground, b => start b
  | .inside owed least greatest bits, b =>
    if least ≤ b ∧ b ≤ greatest then
      let bits := bits * 64 + (b.toNat - 0x80)
      match owed with
      | 0 => ([Char.ofNat bits], .ground)
      | owed + 1 => ([], .inside owed 0x80 0xbf bits)
    else (replacement :: (start b).1, (start b).2)

/-- What the end of the octets makes of an unfinished sequence. -/
def State.finish : State → List Char
  | .ground => []
  | .inside .. => [replacement]

/-- The characters of octets behind those that led to a state. -/
def decodeFrom (state : State) : List UInt8 → List Char
  | [] => state.finish
  | b :: rest => (state.step b).1 ++ decodeFrom (state.step b).2 rest

/-- The text of any octets: well-formed sequences give their characters, and each maximal
  ill-formed subpart gives one replacement character. -/
def decode (octets : List UInt8) : List Char :=
  decodeFrom .ground octets

end Telemetry.Utf8
