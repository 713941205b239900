/-!
# The implicit types of plain scalars

The spelling of a plain scalar decides its type.  Each spelling is a small language over ASCII
characters, and one line feed at the end is ignored.

* `isBoolWord`, `isFloatForm`, `isIntForm`, `isNullWord`   the spellings
* `Scalar.plainType`   the type of a plain scalar
-/

namespace YamlSpan

inductive ScalarType where
  | null
  | bool
  | int
  | float
  | string
  deriving DecidableEq, Repr

def ScalarType.name : ScalarType → String
  | .null => "null"
  | .bool => "bool"
  | .int => "int"
  | .float => "float"
  | .string => "string"

namespace Scalar

/-- A text without its sign. -/
def unsigned : List Char → List Char
  | c :: rest => if c == '+' || c == '-' then rest else c :: rest
  | [] => []

def isDigitOrMark (c : Char) : Bool := c.isDigit || c == '_'

def isOctalOrMark (c : Char) : Bool := ('0' ≤ c && c ≤ '7') || c == '_'

def isBinaryOrMark (c : Char) : Bool := c == '0' || c == '1' || c == '_'

def isHexOrMark (c : Char) : Bool :=
  c.isDigit || ('a' ≤ c && c ≤ 'f') || ('A' ≤ c && c ≤ 'F') || c == '_'

/-- One or more characters of a class, and nothing else. -/
def isRun (p : Char → Bool) (text : List Char) : Bool := !text.isEmpty && text.all p

/-- An exponent, whose sign may be required, and nothing else. -/
def isExponent (signRequired : Bool) : List Char → Bool
  | e :: s :: rest =>
    (e == 'e' || e == 'E') &&
      if s == '+' || s == '-' then isRun Char.isDigit rest
      else !signRequired && isRun Char.isDigit (s :: rest)
  | _ => false

def isOptionalExponent (signRequired : Bool) (text : List Char) : Bool :=
  text.isEmpty || isExponent signRequired text

/-- `1.`, `1.5`, `1.5e3`, `1e3` -/
def isPointForm (text : List Char) : Bool :=
  match unsigned text with
  | [] => false
  | d :: rest =>
    d.isDigit &&
      match rest.dropWhile isDigitOrMark with
      | '.' :: fraction => isOptionalExponent false (fraction.dropWhile isDigitOrMark)
      | tail => isExponent false tail

/-- `.5`, `.5e+3` -/
def isFractionForm (text : List Char) : Bool :=
  match unsigned text with
  | '.' :: d :: rest => isDigitOrMark d && isOptionalExponent true (rest.dropWhile isDigitOrMark)
  | _ => false

/-- `.inf`, `-.Inf` -/
def isInfinityForm (text : List Char) : Bool :=
  [".inf", ".Inf", ".INF"].any fun w => w.toList == unsigned text

/-- `.nan` -/
def isNaNForm (text : List Char) : Bool :=
  [".nan", ".NaN", ".NAN"].any fun w => w.toList == text

def isFloatForm (text : List Char) : Bool :=
  isPointForm text || isFractionForm text || isInfinityForm text || isNaNForm text

def isIntForm (text : List Char) : Bool :=
  match text with
  | '_' :: _ => false
  | _ =>
    isRun isDigitOrMark (unsigned text) ||
      match unsigned text with
      | '0' :: 'b' :: rest => isRun isBinaryOrMark rest
      | '0' :: 'o' :: rest => isRun isOctalOrMark rest
      | '0' :: 'x' :: rest => isRun isHexOrMark rest
      | _ => false

def isBoolWord (text : List Char) : Bool :=
  ["true", "True", "TRUE", "false", "False", "FALSE"].any fun w => w.toList == text

def isNullWord (text : List Char) : Bool :=
  ["~", "null", "Null", "NULL"].any fun w => w.toList == text

/-- A text without one line feed at its end. -/
def dropFinalBreak (text : List Char) : List Char :=
  if text.getLast? = some '\n' then text.dropLast else text

/-- The type of a plain scalar without a tag. -/
def plainType (text : List Char) : ScalarType :=
  let body := dropFinalBreak text
  if isBoolWord body then .bool
  else if isFloatForm body then .float
  else if isIntForm body then .int
  else if text.isEmpty || isNullWord body then .null
  else .string

end Scalar

end YamlSpan
