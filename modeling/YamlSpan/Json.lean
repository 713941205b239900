import YamlSpan.Scalar

/-!
# Plain data

Values as JSON has them, with integers apart from double-precision numbers.  The members of an
object keep their order.  Texts may hold surrogates.
-/

namespace YamlSpan

inductive Json where
  | null
  | bool (b : Bool)
  | number (n : Number)
  | string (s : Text)
  | array (items : List Json)
  | object (members : List (Text × Json))
  deriving Repr

namespace Json

def int (n : Int) : Json := .number (.int n)

/-- The value of the first member with a name. -/
def member? (members : List (Text × Json)) (name : String) : Option Json :=
  members.lookup (Text.ofString name)

def ofScalar : Scalar → Json
  | .null => .null
  | .bool b => .bool b
  | .number n => .number n
  | .string s => .string s

end Json

end YamlSpan
