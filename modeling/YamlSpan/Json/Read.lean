import YamlSpan.Assoc
import YamlSpan.Decimal
import YamlSpan.Json

/-!
# Reading JSON texts

The reader takes JSON and, beyond it, the words `NaN`, `Infinity` and `-Infinity`.  A defect is
reported with the index of the code point where the reader stopped.  Of members with equal names
the last counts.

* `Json.read`   the value of a text
-/

namespace YamlSpan

namespace Json

inductive ReadError where
  | syntaxAt (index : Nat)
  | tooLong
  deriving DecidableEq, Repr

/-- The rest of a text and the index where it starts. -/
structure Input where
  rest : Text
  index : Nat
  deriving DecidableEq, Repr

namespace Input

def drop (i : Input) (count : Nat) : Input := ⟨i.rest.drop count, i.index + count⟩

def fail {α : Type} (i : Input) : Except ReadError α := .error (.syntaxAt i.index)

def isBlank (c : CodePoint) : Bool :=
  c == .char ' ' || c == .char '\t' || c == .char '\n' || c == .char '\r'

def skipBlanks (i : Input) : Input := i.drop (i.rest.takeWhile isBlank).length

/-- Moves over a word if it comes next. -/
def word? (i : Input) (w : String) : Option Input :=
  if (Text.ofString w).isPrefixOf i.rest then some (i.drop w.length) else none

end Input

/-! ### strings -/

def escapes : List (Char × Char) :=
  [('"', '"'), ('\\', '\\'), ('/', '/'), ('b', '\x08'), ('f', '\x0c'), ('n', '\n'), ('r', '\r'),
    ('t', '\t')]

/-- The value of a code point as a hexadecimal digit. -/
def hexDigit? (c : CodePoint) : Option Nat := c.char?.bind (Numeral.digit? 16)

/-- The code point of four hexadecimal digits, which may not end the text. -/
def code? (i : Input) : Option CodePoint :=
  match i.rest with
  | a :: b :: c :: d :: _ :: _ => do
    return .ofNat (Numeral.value 16 [← hexDigit? a, ← hexDigit? b, ← hexDigit? c, ← hexDigit? d])
  | _ => none

/-- Reads the code behind `\u`, and the second one of a pair.  Surrogates that make up no pair stay
as they are. -/
def readCode (i : Input) : Except ReadError (CodePoint × Input) :=
  let digits := i.drop 1
  match code? digits with
  | none => i.fail
  | some first =>
    let behind := digits.drop 4
    match first.isHigh, behind.rest with
    | true, .char '\\' :: .char 'u' :: more =>
      if more.length ≤ 4 then .ok (first, behind)
      else match code? (behind.drop 2) with
        | none => (behind.drop 1).fail
        | some second =>
          match first.joined? second with
          | some c => .ok (c, behind.drop 6)
          | none => .ok (first, behind)
    | _, _ => .ok (first, behind)

/-- Reads the code points of a string up to its closing quote; `start` is the index of the opening
one, which is where an unclosed string is reported. -/
def readChars (start : Nat) : (fuel : Nat) → Input → Except ReadError (Text × Input)
  | 0, _ => .error (.syntaxAt start)
  | fuel + 1, i =>
    match i.rest with
    | [] => .error (.syntaxAt start)
    | .char '"' :: _ => .ok ([], i.drop 1)
    | [.char '\\'] => .error (.syntaxAt start)
    | .char '\\' :: .char 'u' :: _ => do
      let (c, behind) ← readCode (i.drop 1)
      let (more, behind) ← readChars start fuel behind
      return (c :: more, behind)
    | .char '\\' :: letter :: _ =>
      match letter.char?.bind fun c => escapes.lookup c with
      | none => i.fail
      | some c => do
        let (more, behind) ← readChars start fuel (i.drop 2)
        return (.char c :: more, behind)
    | c :: _ =>
      if c.toNat < 0x20 then i.fail
      else do
        let (more, behind) ← readChars start fuel (i.drop 1)
        return (c :: more, behind)

def readString (i : Input) : Except ReadError (Text × Input) :=
  readChars i.index i.rest.length (i.drop 1)

/-! ### numbers -/

def isDigit (c : CodePoint) : Bool := c.isOf Char.isDigit

/-- The length of the digits in front of the point. -/
def wholeLength : Text → Nat
  | .char '0' :: _ => 1
  | rest => (rest.takeWhile isDigit).length

/-- The length of a point with digits behind it. -/
def fractionLength : Text → Nat
  | .char '.' :: rest =>
    let digits := rest.takeWhile isDigit
    if digits.isEmpty then 0 else digits.length + 1
  | _ => 0

def exponentLength : Text → Nat
  | e :: rest =>
    if e == .char 'e' || e == .char 'E' then
      let sign := match rest with
        | s :: _ => if s == .char '+' || s == .char '-' then 1 else 0
        | [] => 0
      let digits := (rest.drop sign).takeWhile isDigit
      if digits.isEmpty then 0 else digits.length + sign + 1
    else 0
  | [] => 0

def readNumber (i : Input) : Except ReadError (Json × Input) :=
  let sign := if i.rest.head? = some (.char '-') then 1 else 0
  let whole := wholeLength (i.rest.drop sign)
  if whole = 0 then i.fail
  else
    let fraction := fractionLength (i.rest.drop (sign + whole))
    let exponent := exponentLength (i.rest.drop (sign + whole + fraction))
    let length := sign + whole + fraction + exponent
    let chars := Text.chars (i.rest.take length)
    if fraction + exponent = 0 then
      match Numeral.read 10 chars with
      | .ok n => .ok (.int n, i.drop length)
      | .error _ => .error .tooLong
    else
      match Decimal.read chars with
      | .ok x => .ok (.number (.float x), i.drop length)
      | .error _ => i.fail

def words : List (String × Json) :=
  [("null", .null), ("true", .bool true), ("false", .bool false), ("NaN", .number (.float .nan)),
    ("Infinity", .number (.float .infinity)), ("-Infinity", .number (.float (.neg .infinity)))]

def readWord? (i : Input) : Option (Json × Input) :=
  words.findSome? fun (w, value) => (i.word? w).map (value, ·)

/-! ### values -/

mutual

def readValue : (fuel : Nat) → Input → Except ReadError (Json × Input)
  | 0, i => i.fail
  | fuel + 1, i =>
    match i.rest with
    | .char '"' :: _ => do
      let (s, behind) ← readString i
      return (.string s, behind)
    | .char '[' :: _ =>
      let inner := (i.drop 1).skipBlanks
      if inner.rest.head? = some (.char ']') then .ok (.array [], inner.drop 1)
      else do
        let (items, behind) ← readItems fuel inner
        return (.array items, behind)
    | .char '\x7b' :: _ =>
      let inner := (i.drop 1).skipBlanks
      if inner.rest.head? = some (.char '\x7d') then .ok (.object [], inner.drop 1)
      else do
        let (members, behind) ← readMembers fuel inner
        return (.object (Assoc.ofList members), behind)
    | _ =>
      match readWord? i with
      | some found => .ok found
      | none => readNumber i

def readItems : (fuel : Nat) → Input → Except ReadError (List Json × Input)
  | 0, i => i.fail
  | fuel + 1, i => do
    let (item, behind) ← readValue fuel i
    let next := behind.skipBlanks
    match next.rest with
    | .char ']' :: _ => return ([item], next.drop 1)
    | .char ',' :: _ =>
      let (more, behind) ← readItems fuel (next.drop 1).skipBlanks
      return (item :: more, behind)
    | _ => next.fail

def readMembers : (fuel : Nat) → Input → Except ReadError (List (Text × Json) × Input)
  | 0, i => i.fail
  | fuel + 1, i =>
    if i.rest.head? != some (.char '"') then i.fail
    else do
      let (name, behind) ← readString i
      let colon := behind.skipBlanks
      if colon.rest.head? != some (.char ':') then colon.fail
      else
        let (value, behind) ← readValue fuel (colon.drop 1).skipBlanks
        let next := behind.skipBlanks
        match next.rest with
        | .char '\x7d' :: _ => return ([(name, value)], next.drop 1)
        | .char ',' :: _ =>
          let (more, behind) ← readMembers fuel (next.drop 1).skipBlanks
          return ((name, value) :: more, behind)
        | _ => next.fail

end

def read (text : Text) : Except ReadError Json := do
  let (value, behind) ← readValue (2 * text.length + 2) (Input.mk text 0).skipBlanks
  let tail := behind.skipBlanks
  if tail.rest.isEmpty then return value else tail.fail

end Json

end YamlSpan
