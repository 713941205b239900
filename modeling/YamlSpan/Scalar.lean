import YamlSpan.Scalar.Literal
import YamlSpan.Scalar.Pattern
import YamlSpan.Tag

/-!
# The meaning of scalars

One of the five typed core tags decides the type of a scalar.  Without one, a scalar that is not
plain is a string and a plain one is typed by its spelling, to which the short words for truth
values are added.  A scalar that is no literal of its type is a string.

* `ScalarType.of`     the type by tag, style and spelling
* `Scalar.classify`   the value of a scalar
-/

namespace YamlSpan

/-- A number: an integer of any size or a double-precision number. -/
inductive Number where
  | int (n : Int)
  | float (x : Binary64)
  deriving DecidableEq, Repr

inductive Scalar where
  | null
  | bool (b : Bool)
  | number (n : Number)
  | string (s : Text)
  deriving DecidableEq, Repr

/-- The types that the core tags name. -/
def ScalarType.ofTag? (tag : Option String) : Option ScalarType :=
  match tag with
  | none => none
  | some tag =>
    [(Tag.coreName "null", ScalarType.null), (Tag.coreName "bool", .bool),
      (Tag.coreName "int", .int), (Tag.coreName "float", .float),
      (Tag.coreName "str", .string)].lookup (Tag.expand tag)

/-- The type that the spelling of a plain scalar shows; a text with a surrogate is a string. -/
def Scalar.spelledType (text : Text) : ScalarType :=
  (text.chars?.map Scalar.plainType).getD .string

/-- The type of a scalar. -/
def ScalarType.of (text : Text) (plain : Bool) (tag : Option String) : ScalarType :=
  match ScalarType.ofTag? tag with
  | some type => type
  | none => if plain then Scalar.spelledType text else .string

namespace Scalar

def type : Scalar → ScalarType
  | .null => .null
  | .bool _ => .bool
  | .number (.int _) => .int
  | .number (.float _) => .float
  | .string _ => .string

/-- The words for truth values that the spellings of plain scalars do not cover. -/
def switchWords : List String :=
  ["y", "Y", "yes", "Yes", "YES", "n", "N", "no", "No", "NO", "on", "On", "ON", "off", "Off", "OFF"]

/-- The value of a text as a literal.  A text with a surrogate is none. -/
def literal? {α : Type} (read : String → Except Literal.Error α) (text : Text) : Option α :=
  text.toString?.bind fun s => (read s).toOption

/-- The value of a text as a type; any text is null, and a string. -/
def ofText? (type : ScalarType) (text : Text) : Option Scalar :=
  match type with
  | .null => some .null
  | .bool => (literal? Literal.bool text).map .bool
  | .int => (literal? Literal.int text).map fun n => .number (.int n)
  | .float => (literal? Literal.float text).map fun x => .number (.float x)
  | .string => some (.string text)

def literalType (text : Text) (plain : Bool) (tag : Option String) : ScalarType :=
  if plain ∧ ScalarType.ofTag? tag = none ∧ text ∈ switchWords.map Text.ofString then .bool
  else .of text plain tag

def classify (text : Text) (plain : Bool) (tag : Option String) : Scalar :=
  (ofText? (literalType text plain tag) text).getD (.string text)

end Scalar

end YamlSpan
