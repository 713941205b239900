import YamlSpan.Json.Read
import YamlSpan.Text.Utf8

/-!
# The encoding of JSON texts

JSON texts begin with two ASCII characters, so the zero octets among the first four tell how a
text is encoded.

* `Json.decodeText?`   the text of a list of octets, none if they do not encode one
-/

namespace YamlSpan.Json

/-- The encodings of JSON texts, with the order of octets for wide ones. -/
inductive Encoding where
  | utf8
  | utf16 (bigEndian : Bool)
  | utf32 (bigEndian : Bool)
  deriving DecidableEq, Repr

def Encoding.detect : List Nat → Encoding
  | [0, _] => .utf16 true
  | [_, 0] => .utf16 false
  | 0 :: b :: _ :: _ :: _ => if b = 0 then .utf32 true else .utf16 true
  | _ :: 0 :: c :: d :: _ => if c = 0 ∧ d = 0 then .utf32 false else .utf16 false
  | _ => .utf8

/-- The units of two octets; none if one octet is left over. -/
def units16? (bigEndian : Bool) : List Nat → Option (List Nat)
  | [] => some []
  | [_] => none
  | a :: b :: rest => do
    return (if bigEndian then a * 256 + b else b * 256 + a) :: (← units16? bigEndian rest)

/-- The text of units of two octets; surrogates that make up no pair stay as they are. -/
def ofUnits16 (units : List Nat) : Text := Text.joinPairs (units.map .ofNat)

/-- The text of units of four octets; none if octets are left over or a unit is too large. -/
def ofUnits32? (bigEndian : Bool) : List Nat → Option Text
  | [] => some []
  | a :: b :: c :: d :: rest => do
    let code := Numeral.value 256 (if bigEndian then [a, b, c, d] else [d, c, b, a])
    if 0x10ffff < code then none else return .ofNat code :: (← ofUnits32? bigEndian rest)
  | _ => none

def decodeText? (octets : List Nat) : Option Text :=
  match octets with
  | 0xef :: 0xbb :: 0xbf :: rest => (Text.Utf8.decode rest).toOption.map .ofChars
  | _ =>
    match Encoding.detect octets with
    | .utf8 => (Text.Utf8.decode octets).toOption.map .ofChars
    | .utf16 bigEndian => (units16? bigEndian octets).map ofUnits16
    | .utf32 bigEndian => ofUnits32? bigEndian octets

end YamlSpan.Json
