import YamlSpan.Numeral

/-!
# Integers written by hand

In canonical form an integer is an optional minus sign and one or more digits, of which the first
is no zero unless it is the only one.  Written by hand it may also have margins, a plus sign, zeros
at its front, single separators between digits and a fraction of zeros.  The zeros at the front may
come before the minus sign, too.  A text is brought into canonical form and then read.

* `IntText.canonical?`   the value of an integer in canonical form
* `IntText.tidy?`        the canonical form of a text
* `IntText.read`         the value of a text
-/

namespace YamlSpan.IntText

inductive Error where
  | malformed
  | tooLong
  deriving DecidableEq, Repr

def splitMinus : List Char → Bool × List Char
  | '-' :: rest => (true, rest)
  | rest => (false, rest)

/-! ### canonical form -/

/-- The value of an integer in canonical form; with its sign it is no longer than a numeral may
be. -/
def canonical? (text : List Char) : Option Int :=
  let (negative, digits) := splitMinus text
  if digits = ['0'] then some 0
  else if digits.isEmpty || digits.head? == some '0' || !digits.all Char.isDigit
      || Numeral.digitLimit < text.length then none
  else some (Numeral.signed negative (Numeral.value 10 (Numeral.splitDigits 10 digits).1))

/-- Does a text begin with an integer in canonical form that is too long? -/
def isTooLong (text : List Char) : Bool :=
  let (negative, body) := splitMinus text
  let digits := body.takeWhile Char.isDigit
  digits.head? != some '0' && Numeral.digitLimit < digits.length + negative.toNat

/-! ### from other forms -/

/-- A text without a plus sign, which goes with no other sign. -/
def dropPlus? : List Char → Option (List Char)
  | '+' :: '-' :: _ => none
  | '+' :: rest => some rest
  | rest => some rest

def isZeroOrMark (c : Char) : Bool := c == '0' || c == '_'

/-- A text without the zeros at its front and the separators among them.  The last of these
characters stays in front of a point and where nothing follows.  Only a digit or a minus sign may
come first. -/
def dropZeros? : List Char → Option (List Char)
  | '0' :: rest =>
    let last := ('0' :: rest.takeWhile isZeroOrMark).getLastD '0'
    match rest.dropWhile isZeroOrMark with
    | [] => some [last]
    | '.' :: tail => some (last :: '.' :: tail)
    | c :: tail => if c.isDigit || c == '-' then some (c :: tail) else none
  | c :: rest => if c.isDigit || c == '-' then some (c :: rest) else none
  | [] => none

/-- A text without a fraction of one or more zeros. -/
def dropZeroFraction (text : List Char) : List Char :=
  let whole := text.takeWhile (· != '.')
  let fraction := text.drop (whole.length + 1)
  if !fraction.isEmpty && fraction.all (· == '0') then whole else text

/-- Does a separator end the text or stand next to another? -/
def hasLooseSeparator : List Char → Bool
  | [] => false
  | ['_'] => true
  | '_' :: '_' :: _ => true
  | _ :: rest => hasLooseSeparator rest

/-- A text without its separators, unless one of them does not separate. -/
def dropSeparators (text : List Char) : List Char :=
  if text.head? = some '_' || hasLooseSeparator text then text else text.filter (· != '_')

/-- The canonical form of a text without margins; what cannot be put right stays as it is. -/
def tidy? (text : List Char) : Option (List Char) := do
  let (negative, body) := splitMinus (← dropPlus? text)
  let digits := dropSeparators (dropZeroFraction (← dropZeros? body))
  return if negative then '-' :: digits else digits

def read (text : List Char) : Except Error Int :=
  let text := Text.trim text
  if isTooLong text then .error .tooLong
  else match (tidy? text).bind canonical? with
    | some n => .ok n
    | none => .error .malformed

end YamlSpan.IntText
