import YamlSpan.Decimal

/-!
# Literals

* `Literal.bool`    the words of the two truth values, in any case
* `Literal.int`     decimal, `0x`, `0o` and `0b` integers with separators
* `Literal.float`   decimal fractions with separators, `.inf` and `.nan`
-/

namespace YamlSpan.Literal

inductive Error where
  | notBool (text : String)
  | notInt (text : String)
  | numeral (e : Numeral.Error)
  | decimal (e : Decimal.Error)
  deriving DecidableEq, Repr

def Error.message : Error → String
  | .notBool text => "Invalid boolean " ++ Text.quoted text
  | .notInt text => "Invalid integer " ++ Text.quoted text
  | .numeral e => e.message
  | .decimal e => e.message

def trueWords : List String := ["true", "y", "yes", "on"]

def falseWords : List String := ["false", "n", "no", "off"]

/-- The truth value of a word.  Only ASCII letters are lowered: no other character has one of the
letters of these words as its lower case. -/
def bool (text : String) : Except Error Bool :=
  if Text.lower text ∈ trueWords then .ok true
  else if Text.lower text ∈ falseWords then .ok false
  else .error (.notBool text)

/-- Splits off the sign of a literal once its separators are dropped. -/
def body (text : String) : Bool × List Char :=
  Numeral.splitSign (text.toList.filter (· != '_'))

def intIn (negative : Bool) (base : Nat) (digits : List Char) : Except Error Int :=
  match Numeral.read base digits with
  | .ok n => .ok (if negative then -n else n)
  | .error e => .error (.numeral e)

def int (text : String) : Except Error Int :=
  let (negative, digits) := body text
  match digits with
  | '0' :: 'x' :: rest => intIn negative 16 rest
  | '0' :: 'o' :: rest => intIn negative 8 rest
  | '0' :: 'b' :: rest => intIn negative 2 rest
  | _ =>
    if digits.isEmpty || !digits.all Text.isDigit then .error (.notInt text)
    else intIn negative 10 digits

def magnitude (digits : List Char) : Except Error Binary64 :=
  let word := Text.lower (String.ofList digits)
  if word = ".inf" then .ok .infinity
  else if word = ".nan" then .ok .nan
  else match Decimal.read digits with
    | .ok x => .ok x
    | .error e => .error (.decimal e)

def float (text : String) : Except Error Binary64 :=
  let (negative, digits) := body text
  (magnitude digits).map fun x => if negative then x.neg else x

end YamlSpan.Literal
