import YamlSpan.Text.Blank
import YamlSpan.Text.Digit
import YamlSpan.Text.Quoted

/-!
# Integer numerals

A numeral in base 2, 8, 10 or 16 is an optional sign, the mark of its base (`0b`, `0o`, `0x`,
optional, not in base 10) and one or more digits, with margins allowed around it.  Decimal digits
of all scripts count with their value.  A decimal numeral has at most `Numeral.digitLimit` digits.

* `Numeral.read`            the value of a numeral
* `Numeral.Error.message`   why a text is none
-/

namespace YamlSpan.Numeral

def digitLimit : Nat := 4300

inductive Error where
  | invalid (base : Nat) (text : String)
  | tooLong (digits : Nat)
  deriving DecidableEq, Repr

/-- The first 200 characters of a quoted text, which is all that a message shows. -/
def excerpt (s : String) : String := String.ofList ((Text.quoted s).toList.take 200)

def Error.message : Error → String
  | .invalid base text =>
    "invalid literal for int() with base " ++ toString base ++ ": " ++ excerpt text
  | .tooLong digits =>
    "Exceeds the limit (" ++ toString digitLimit
      ++ " digits) for integer string conversion: value has " ++ toString digits
      ++ " digits; use sys.set_int_max_str_digits() to increase the limit"

/-- The ASCII form of a character of a numeral: decimal digits of all scripts become `0` to `9`
and margins become spaces. -/
def fold (c : Char) : Char :=
  if c.toNat < 0x7f then c
  else if Text.isMargin c then ' '
  else match Text.decimalValue? c with
    | some v => Nat.digitChar v
    | none => '?'

def digit? (base : Nat) (c : Char) : Option Nat :=
  let n := c.toNat
  let v :=
    if '0'.toNat ≤ n && n ≤ '9'.toNat then n - '0'.toNat
    else if 'a'.toNat ≤ n && n ≤ 'z'.toNat then n - 'a'.toNat + 10
    else if 'A'.toNat ≤ n && n ≤ 'Z'.toNat then n - 'A'.toNat + 10
    else base
  if v < base then some v else none

/-- The value of digits, most significant first, after the ones that made up `acc`. -/
def valueFrom (base : Nat) : (acc : Nat) → List Nat → Nat
  | acc, [] => acc
  | acc, d :: rest => valueFrom base (acc * base + d) rest

/-- The value of digits, most significant first. -/
def value (base : Nat) (digits : List Nat) : Nat := valueFrom base 0 digits

def hexValue (c : Char) : Nat := (digit? 16 c).getD 0

def hexNumber (digits : List Char) : Nat := value 16 (digits.map hexValue)

/-- Splits off one leading sign; true stands for minus. -/
def splitSign : List Char → Bool × List Char
  | '-' :: rest => (true, rest)
  | '+' :: rest => (false, rest)
  | rest => (false, rest)

/-- The letter that marks a base after a zero. -/
def baseLetter : Nat → Option Char
  | 2 => some 'b'
  | 8 => some 'o'
  | 16 => some 'x'
  | _ => none

/-- Drops the mark of the base, if there is one, its letter in either case. -/
def dropBaseMark (base : Nat) : List Char → List Char
  | '0' :: letter :: rest =>
    if baseLetter base = some letter.toLower then rest else '0' :: letter :: rest
  | rest => rest

/-- The digits at the front of a text, and what follows them. -/
def splitDigits (base : Nat) : List Char → List Nat × List Char
  | [] => ([], [])
  | c :: rest =>
    match digit? base c with
    | some v =>
      let (digits, tail) := splitDigits base rest
      (v :: digits, tail)
    | none => ([], c :: rest)

/-- The sign of a numeral applied to its magnitude. -/
def signed (negative : Bool) (n : Nat) : Int := if negative then -n else n

def read (base : Nat) (text : List Char) : Except Error Int :=
  let invalid := Error.invalid base (String.ofList text)
  let (negative, body) := splitSign ((text.map fold).dropWhile Text.isMargin)
  let (digits, rest) := splitDigits base (dropBaseMark base body)
  if base = 10 ∧ digitLimit < digits.length then .error (.tooLong digits.length)
  else if digits.isEmpty || !rest.all Text.isMargin then .error invalid
  else .ok (signed negative (value base digits))

end YamlSpan.Numeral
