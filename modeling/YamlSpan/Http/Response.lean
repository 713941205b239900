import YamlSpan.Validation

/-!
# Answers

An answer carries plain data.  What has no notation there cannot be sent: a text with a surrogate,
and a number that is not finite.  The second may be sent as null instead; otherwise the request
fails.  An answer about defects shows what was found, so such data may come from the request.

* `Json.isSendable`   whether plain data can be sent
* `Json.sent`         plain data with null for the numbers that are not finite
* `Json.shown`        what is shown of the data of a request
* `Http.Response`     an answer
* `Http.rejected`     the answer to a request with defects
-/

namespace YamlSpan

namespace Json

mutual

/-- Can plain data be sent? -/
def isSendable : Json → Bool
  | .number (.float x) => x.isFinite
  | .string s => s.isWellFormed
  | .array items => areItemsSendable items
  | .object members => areMembersSendable members
  | _ => true

def areItemsSendable : List Json → Bool
  | [] => true
  | item :: rest => item.isSendable && areItemsSendable rest

def areMembersSendable : List (Text × Json) → Bool
  | [] => true
  | (name, value) :: rest => name.isWellFormed && value.isSendable && areMembersSendable rest

end

mutual

/-- Plain data with null for the numbers that are not finite. -/
def sent : Json → Json
  | .number (.float x) => if x.isFinite then .number (.float x) else .null
  | .array items => .array (sentItems items)
  | .object members => .object (sentMembers members)
  | value => value

def sentItems : List Json → List Json
  | [] => []
  | item :: rest => item.sent :: sentItems rest

def sentMembers : List (Text × Json) → List (Text × Json)
  | [] => []
  | (name, value) :: rest => (name, value.sent) :: sentMembers rest

end

def isHidden (name : Text) : Bool := (Text.ofString "_sa").isPrefixOf name

mutual

/-- The data of a request without what is not shown. -/
def shown : Json → Json
  | .array items => .array (shownItems items)
  | .object members => .object (shownMembers members)
  | value => value

def shownItems : List Json → List Json
  | [] => []
  | item :: rest => item.shown :: shownItems rest

def shownMembers : List (Text × Json) → List (Text × Json)
  | [] => []
  | (name, value) :: rest =>
    if isHidden name then shownMembers rest else (name, value.shown) :: shownMembers rest

end

end Json

def PathStep.toJson : PathStep → Json
  | .name s => .string s
  | .index n => .int n

/-- An issue with the data of a request, of which it shows what it is about. -/
def Issue.toJson (request : Json) (i : Issue) : Json :=
  .object [("type", .string i.kind.code), ("loc", .array (i.path.map PathStep.toJson)),
    ("msg", .string i.kind.message), ("input", (request.nearest i.path).shown)]

namespace Http

inductive Content where
  | json (value : Json)
  | text (s : String)
  deriving Repr

/-- An answer; a request that is handled to the end is timed. -/
structure Response where
  status : Nat
  isTimed : Bool
  content : Content
  deriving Repr

/-- The answer when handling a request fails. -/
def broken : Response := ⟨500, false, .text "Internal Server Error"⟩

/-- A timed answer with plain data; handling fails if they cannot be sent. -/
def ok (status : Nat) (value : Json) : Response :=
  if value.isSendable then ⟨status, true, .json value⟩ else broken

def detail (status : Nat) (value : Json) : Response := ok status (.object [("detail", value)])

def rejected (body : Json) (issues : List Issue) : Response :=
  detail 422 (.array (issues.map (Issue.toJson (.object [("body", body)]))))

end Http

end YamlSpan
