import YamlSpan.Http.Limit
import YamlSpan.Http.Response
import YamlSpan.Json.Encoding
import YamlSpan.Parse
import YamlSpan.Settings

/-!
# The service

`POST /parse` parses a text into its documents and `GET /health` tells that the service is up.

The pages that describe the service itself are left out: `/docs` with `/docs/oauth2-redirect`,
`/redoc` and `/openapi.json`, whose texts are made elsewhere from the table of routes.  Here they
are answered like paths that do not exist.

* `Http.Request`   what comes in
* `Http.respond`   the answer to a request
-/

namespace YamlSpan

def serviceVersion : String := "0.1.0"

def Span.toJson (s : Span) : Json := .object [("start", .int s.start), ("end", .int s.stop)]

def Diagnostic.toJson (d : Diagnostic) : Json :=
  .object [("message", .string d.message), ("location", d.location.toJson),
    ("code", .string d.code.name)]

def Document.toJson (d : Document) : Json :=
  .object [("root", (d.root.map fun n => n.toJson.sent).getD .null),
    ("errors", .array (d.errors.map Diagnostic.toJson)),
    ("warnings", .array (d.warnings.map Diagnostic.toJson)),
    ("line_starts", .array (d.lineStarts.map .int))]

namespace Http

/-- A request; the body arrives in chunks of octets. -/
structure Request where
  method : String
  path : String
  contentLength : Option String
  chunks : List (List Nat)
  deriving DecidableEq, Repr

/-! ### parsing -/

structure ParseRequest where
  text : Text
  customTags : Option (List Text)
  deriving DecidableEq, Repr

/-- A list of tags that may be null. -/
def checkTags (path : List PathStep) : Json → Check (Option (List Text))
  | .null => .valid none
  | value => some <$> checkStrings path value

def ParseRequest.ofMembers (members : List (Text × Json)) : Check ParseRequest :=
  let place (name : String) : List PathStep := [.name "body", .name name]
  let text :=
    match Json.member? members "text" with
    | none => .fail .missing (place "text")
    | some value => checkString (place "text") value
  let tags := checkTags (place "custom_tags") ((Json.member? members "custom_tags").getD .null)
  ParseRequest.mk <$> text <*> tags

/-- The body of a request as plain data, or the answer to a body that has none. -/
def readBody (body : List Nat) : Except Response Json :=
  let unreadable := detail 400 (.string "There was an error parsing the body")
  if body.isEmpty then .error (rejected .null [⟨.missing, [.name "body"]⟩])
  else match Json.decodeText? body with
    | none => .error unreadable
    | some text =>
      match Json.read text with
      | .ok value => .ok value
      | .error (.syntaxAt index) =>
        .error (rejected (.object []) [⟨.notJson, [.name "body", .index index]⟩])
      | .error .tooLong => .error unreadable

def answerParse (settings : Settings) (request : ParseRequest) : Response :=
  match parse request.text (request.customTags.getD settings.customTags) with
  | .ok documents => ok 200 (.object [("documents", .array (documents.map Document.toJson))])
  | .error (.tag e) => detail 422 (.string e.message)
  | .error (.fault _) => broken

def handleParse (settings : Settings) (body : List Nat) : Response :=
  match readBody body with
  | .error response => response
  | .ok (.object members) =>
    match ParseRequest.ofMembers members with
    | .valid request => answerParse settings request
    | .invalid issues => rejected (.object members) issues
  | .ok body => rejected body [⟨.notObject, [.name "body"]⟩]

/-! ### routes -/

def handleHealth : Response :=
  ok 200 (.object [("status", .string "ok"), ("version", .string serviceVersion)])

def wrongMethod : Response := detail 405 (.string "Method Not Allowed")

inductive Endpoint where
  | parse
  | health
  deriving DecidableEq, Repr

/-- The endpoint at a path, which may end in one line break. -/
def Endpoint.at? (path : List Char) : Option Endpoint :=
  let plain := if path.getLast? = some '\n' then path.dropLast else path
  if plain = "/parse".toList then some .parse
  else if plain = "/health".toList then some .health
  else none

def Endpoint.answer (settings : Settings) (method : String) (body : List Nat) :
    Endpoint → Response
  | .parse => if method = "POST" then handleParse settings body else wrongMethod
  | .health => if method = "GET" then handleHealth else wrongMethod

def dropSlashes (path : List Char) : List Char := (path.reverse.dropWhile (· == '/')).reverse

/-- The answer to a request that was let through with a body.  A path with slashes too many leads
to the one without. -/
def route (settings : Settings) (method path : String) (body : List Nat) : Response :=
  match Endpoint.at? path.toList with
  | some endpoint => endpoint.answer settings method body
  | none =>
    if path.toList.getLast? = some '/' && (Endpoint.at? (dropSlashes path.toList)).isSome then
      ⟨307, true, .text ""⟩
    else detail 404 (.string "Not Found")

def tooLarge (limit : Int) : Response :=
  detail 413 (.string ("Request body too large (max " ++ toString limit ++ " bytes)"))

def respond (settings : Settings) (request : Request) : Response :=
  match screen settings.maxBodyBytes request.method request.contentLength request.chunks with
  | .tooLarge => tooLarge settings.maxBodyBytes
  | .fault _ => broken
  | .passed body => route settings request.method request.path body

end Http

end YamlSpan
