import YamlSpan.Numeral

/-!
# The limit on request bodies

A request is turned away when the length it declares is above the limit, whatever its method, or
when it is of a method with a body and more octets arrive than the limit allows.  The declared
length is looked at only if it consists of digits.

* `declaredLength`   the length a header declares
* `receive`          the octets of a body, unless they exceed the limit
* `screen`           whether a request is let through
-/

namespace YamlSpan.Http

/-- The length that a header declares; none if it is missing or does not consist of digits. -/
def declaredLength (header : Option String) : Except Numeral.Error (Option Int) :=
  match header with
  | none => .ok none
  | some text =>
    if text.toList.isEmpty || !text.toList.all Text.isDigit then .ok none
    else (Numeral.read 10 text.toList).map some

/-- Is a body read for this method? -/
def hasBody (method : String) : Bool := method == "POST" || method == "PUT" || method == "PATCH"

/-- The octets of a body that arrives in chunks, `received` being those already there; none as
soon as there are more than the limit. -/
def receive (limit : Int) : (received : List Nat) → (chunks : List (List Nat)) → Option (List Nat)
  | received, [] => if limit < received.length then none else some received
  | received, chunk :: rest =>
    if limit < (received ++ chunk).length then none else receive limit (received ++ chunk) rest

inductive Admission where
  | tooLarge
  | passed (body : List Nat)
  | fault (e : Numeral.Error)
  deriving DecidableEq, Repr

def screenBody (limit : Int) (method : String) (chunks : List (List Nat)) : Admission :=
  if hasBody method then
    match receive limit [] chunks with
    | none => .tooLarge
    | some body => .passed body
  else .passed chunks.flatten

/-- Decides whether a request is let through, and with which body. -/
def screen (limit : Int) (method : String) (header : Option String) (chunks : List (List Nat)) :
    Admission :=
  match declaredLength header with
  | .error e => .fault e
  | .ok (some length) => if limit < length then .tooLarge else screenBody limit method chunks
  | .ok none => screenBody limit method chunks

end YamlSpan.Http
