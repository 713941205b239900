import YamlSpan.IntText
import YamlSpan.Json

/-!
# Checking plain data

A check turns plain data into a value of a type or lists what is wrong, each issue with its place.
Integers may be written as texts, and as numbers of double precision within the range of words of
64 bits.

* `Issue`          what is wrong, and where
* `Json.nearest`   the value that an issue is about
* `checkInt`, `checkString`, `checkStrings`   the checks
-/

namespace YamlSpan

inductive IssueKind where
  | missing
  | notString
  | notList
  | notObject
  | notJson
  | notInt
  | noIntText
  | oversizedInt
  | fractional
  | notFinite
  deriving DecidableEq, Repr

namespace IssueKind

def code : IssueKind → String
  | .missing => "missing"
  | .notString => "string_type"
  | .notList => "list_type"
  | .notObject => "model_attributes_type"
  | .notJson => "json_invalid"
  | .notInt => "int_type"
  | .noIntText => "int_parsing"
  | .oversizedInt => "int_parsing_size"
  | .fractional => "int_from_float"
  | .notFinite => "finite_number"

def message : IssueKind → String
  | .missing => "Field required"
  | .notString => "Input should be a valid string"
  | .notList => "Input should be a valid list"
  | .notObject => "Input should be a valid dictionary or object to extract fields from"
  | .notJson => "JSON decode error"
  | .notInt => "Input should be a valid integer"
  | .noIntText => "Input should be a valid integer, unable to parse string as an integer"
  | .oversizedInt => "Unable to parse input string as an integer, exceeded maximum size"
  | .fractional => "Input should be a valid integer, got a number with a fractional part"
  | .notFinite => "Input should be a finite number"

end IssueKind

inductive PathStep where
  | name (s : String)
  | index (n : Nat)
  deriving DecidableEq, Repr

/-- The value at the end of a path; where the path leads nowhere, the last value on it. -/
def Json.nearest : List PathStep → Json → Json
  | .name s :: rest, .object members =>
    match member? members s with
    | some value => nearest rest value
    | none => .object members
  | .index n :: rest, .array items =>
    match items[n]? with
    | some value => nearest rest value
    | none => .array items
  | _, value => value

/-- What is wrong, and where. -/
structure Issue where
  kind : IssueKind
  path : List PathStep
  deriving DecidableEq, Repr

/-- The value of a check, or all that is wrong. -/
inductive Check (α : Type) where
  | valid (a : α)
  | invalid (issues : List Issue)
  deriving DecidableEq, Repr

namespace Check

def fail {α : Type} (kind : IssueKind) (path : List PathStep) : Check α := .invalid [⟨kind, path⟩]

/-- Checks made side by side list the issues of all of them, in order. -/
instance : Applicative Check where
  pure := .valid
  seq f a :=
    match f, a () with
    | .valid f, .valid a => .valid (f a)
    | .valid _, .invalid e => .invalid e
    | .invalid e, .valid _ => .invalid e
    | .invalid e, .invalid e' => .invalid (e ++ e')

end Check

/-! ### texts and lists -/

def checkString (path : List PathStep) : Json → Check Text
  | .string s => .valid s
  | _ => .fail .notString path

/-- All texts of a list whose first item has the given index. -/
def checkItems (path : List PathStep) : (index : Nat) → List Json → Check (List Text)
  | _, [] => .valid []
  | index, item :: rest =>
    List.cons <$> checkString (path ++ [.index index]) item <*> checkItems path (index + 1) rest

def checkStrings (path : List PathStep) : Json → Check (List Text)
  | .array items => checkItems path 0 items
  | _ => .fail .notList path

/-! ### integers -/

def checkIntText (path : List PathStep) (s : Text) : Check Int :=
  match s.chars?.map IntText.read with
  | some (.ok n) => .valid n
  | some (.error .tooLong) => .fail .oversizedInt path
  | _ => .fail .noIntText path

/-- The magnitude from which on a number of double precision is no integer. -/
def wholeLimit : Int := 0x8000000000000000

def checkIntFloat (path : List PathStep) (x : Binary64) : Check Int :=
  if !x.isFinite then .fail .notFinite path
  else match x.toInt? with
    | some n => if -wholeLimit < n ∧ n < wholeLimit then .valid n else .fail .oversizedInt path
    | none => .fail .fractional path

def checkInt (path : List PathStep) : Json → Check Int
  | .string s => checkIntText path s
  | .bool b => .valid (if b then 1 else 0)
  | .number (.int n) => .valid n
  | .number (.float x) => checkIntFloat path x
  | _ => .fail .notInt path

end YamlSpan
