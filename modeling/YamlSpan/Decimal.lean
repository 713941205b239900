import YamlSpan.Binary64
import YamlSpan.Numeral

/-!
# Decimal fractions

A decimal literal is an optional sign followed by digits with an optional point and exponent, or
by `inf`, `infinity` or `nan` in any case, with margins allowed around it.  Decimal digits of all
scripts count with their value, and the value is the nearest double-precision number.

* `Decimal.read`            the value of a literal
* `Decimal.Error.message`   why a text is none
-/

namespace YamlSpan.Decimal

structure Error where
  text : String
  deriving DecidableEq, Repr

def Error.message (e : Error) : String :=
  "could not convert string to float: " ++ Text.quoted e.text

/-- The exponent at the end of a literal; a missing one is zero. -/
def exponent? : List Char → Option Int
  | [] => some 0
  | c :: rest =>
    if c.toLower == 'e' then
      let (negative, body) := Numeral.splitSign rest
      match Numeral.splitDigits 10 body with
      | ([], _) => none
      | (digits, []) => some (Numeral.signed negative (Numeral.value 10 digits))
      | _ => none
    else none

/-- The value of `whole` before the point and `fraction` after it, times a power of ten. -/
def ofDigits (whole fraction : List Nat) (e : Int) : Binary64 :=
  let digits := (whole ++ fraction).dropWhile (· == 0)
  Binary64.ofDecimal (Numeral.value 10 digits) digits.length (e - fraction.length)

/-- The value of an unsigned literal. -/
def magnitude? (body : List Char) : Option Binary64 :=
  let word := String.ofList (body.map Char.toLower)
  if word = "inf" ∨ word = "infinity" then some .infinity
  else if word = "nan" then some .nan
  else
    let (whole, rest) := Numeral.splitDigits 10 body
    let (fraction, tail) :=
      match rest with
      | '.' :: more => Numeral.splitDigits 10 more
      | _ => ([], rest)
    if whole.isEmpty && fraction.isEmpty then none
    else (exponent? tail).map (ofDigits whole fraction)

def read (text : List Char) : Except Error Binary64 :=
  let (negative, body) := Numeral.splitSign (Text.trim (text.map Numeral.fold))
  match magnitude? body with
  | some x => .ok (if negative then x.neg else x)
  | none => .error ⟨String.ofList text⟩

end YamlSpan.Decimal
