import YamlSpan.Event
import YamlSpan.Tag
import YamlSpan.Token

/-!
# From tokens to events

A stack of goals says what may come next.  One step takes the goal on top, looks at the next
token, gives at most one event and leaves the goals that are still to be met.  Only the next token
is looked at, so the events before a defect do not depend on it.

* `Goal`            what is to be read
* `Reader.meet`     meets one goal
* `readEvents`      the events of the tokens of a text
-/

namespace YamlSpan

inductive Goal where
  | anyDocument
  | explicitDocument
  | documentContent
  | documentEnd
  | node (block indentless : Bool)
  | blockItems
  | indentlessItems
  | blockKey
  | blockValue
  | flowItems (first : Bool)
  | pairKey
  | pairValue
  | pairEnd
  | flowKey (first : Bool)
  | flowValue
  | flowNoValue
  deriving DecidableEq, Repr

abbrev Handles := List (String × String)

/-- The handles that every document has. -/
def Handles.standard : Handles := [("!", "!"), ("!!", Tag.core)]

/-- The state of reading events: the tokens ahead, the handles of the document, the goals. -/
structure Reader where
  tokens : List ReadyToken
  halt : Option Halt
  handles : Handles
  goals : List Goal
  deriving DecidableEq, Repr

namespace Reader

def start (run : TokenRun) : Reader := ⟨run.tokens, run.halt, .standard, [.anyDocument]⟩

/-- Why there is no further token. -/
def exhausted (r : Reader) : Halt := r.halt.getD (.fault .nothingOpen)

/-- The next token, with the version in force. -/
def peekReady (r : Reader) : Except Halt ReadyToken :=
  match r.tokens with
  | [] => .error r.exhausted
  | t :: _ => .ok t

def peek (r : Reader) : Except Halt Token := (·.token) <$> r.peekReady

def skip (r : Reader) : Reader := { r with tokens := r.tokens.tail }

def push (r : Reader) (goals : List Goal) : Reader := { r with goals := goals ++ r.goals }

end Reader

def Token.fail {α : Type} (t : Token) (p : Problem) : Except Halt α := .error (p.halt t.start)

def Token.refuse {α : Type} (t : Token) (p : String → Problem) : Except Halt α :=
  t.fail (p t.kind.name)

def Mark.to (start stop : Mark) : Span := ⟨start.index, stop.index⟩

def Token.span (t : Token) : Span := t.start.to t.stop

/-- A node that was left out at a place. -/
def leftOut (m : Mark) : Event := .scalar (m.to m) [] true none none

abbrev Step := Except Halt (Option Event × Reader)

def give (event : Event) (r : Reader) : Step := .ok (some event, r)

namespace Reader

/-! ### documents -/

def skipDocumentEnds : List ReadyToken → List ReadyToken
  | [] => []
  | t :: rest => if t.token.kind = .documentEnd then skipDocumentEnds rest else t :: rest

/-- What the directives of a document say. -/
structure Prologue where
  version : Option Version
  handles : Handles
  deriving DecidableEq, Repr

def Prologue.add (p : Prologue) (t : Token) : Directive → Except Halt Prologue
  | .version v =>
    if p.version.isSome then t.fail .repeatedVersion
    else if v.major != 1 then t.fail .incompatibleVersion
    else .ok { p with version := some v }
  | .handle handle expansion =>
    if (p.handles.lookup handle).isSome then t.fail (.repeatedHandle handle)
    else .ok { p with handles := p.handles ++ [(handle, expansion)] }
  | .other => .ok p

/-- Reads the directives of a document, up to the token behind them. -/
def readDirectives (halt : Halt) : (p : Prologue) → List ReadyToken →
    Except Halt (Prologue × List ReadyToken)
  | _, [] => .error halt
  | p, t :: rest =>
    match t.token.kind with
    | .directive d => do
      let p ← p.add t.token d
      readDirectives halt p rest
    | _ => .ok (p, t :: rest)

/-- Only the two known minor versions may be asked for. -/
def Prologue.check (p : Prologue) : Except Halt Unit :=
  match p.version with
  | some v => if v.minor = 1 ∨ v.minor = 2 then .ok () else
      .error (.fault (.unsupportedVersion v.major v.minor))
  | none => .ok ()

/-- A document with a marker, or the end. -/
def explicitDocument (r : Reader) : Step := do
  let r := { r with tokens := skipDocumentEnds r.tokens }
  let t ← r.peek
  if t.kind = .streamEnd then return (none, r)
  else
    let (p, tokens) ← readDirectives r.exhausted ⟨none, []⟩ r.tokens
    p.check
    let r := { r with tokens := tokens, handles := p.handles ++ Handles.standard }
    let t ← r.peek
    if t.kind = .documentStart then
      give (.documentStart t.span) (r.skip.push [.documentContent, .documentEnd])
    else t.refuse .noDocumentStart

/-- A document that may go without a marker. -/
def anyDocument (r : Reader) : Step := do
  let t ← r.peek
  match t.kind with
  | .directive _ | .documentStart | .streamEnd => return (none, r.push [.explicitDocument])
  | _ =>
    give (.documentStart (t.start.to t.start))
      ({ r with handles := .standard }.push [.node true false, .documentEnd])

/-- The content of a document, which may be left out. -/
def documentContent (r : Reader) : Step := do
  let t ← r.peek
  match t.kind with
  | .directive _ | .documentStart | .documentEnd | .streamEnd => give (leftOut t.start) r
  | _ => return (none, r.push [.node true false])

/-- The end of a document; behind a marker a document may go without one, except in the older
version. -/
def documentEnd (r : Reader) : Step := do
  let t ← r.peek
  if t.kind = .documentEnd then
    let r := r.skip
    let next ← r.peekReady
    if next.token.kind != .streamEnd && t.stop.line == next.token.start.line then
      next.token.refuse .contentAfterDocumentEnd
    else
      let goal := if next.version = .older then Goal.explicitDocument else .anyDocument
      give (.documentEnd (t.start.to t.stop)) (r.push [goal])
  else give (.documentEnd (t.start.to t.start)) (r.push [.explicitDocument])

/-! ### nodes -/

def decodeEscape (digits : List Char) : Except Halt Char :=
  match Numeral.read 16 digits with
  | .ok n => if n < 0 then .error (.fault .notCharacter) else .ok (Char.ofNat n.toNat)
  | .error e => .error (.fault (.numeral e))

/-- Decodes the escapes of a suffix: two characters behind a percent sign are the code of one. -/
def decodeSuffix : List Char → Except Halt (List Char)
  | '%' :: rest =>
    match rest with
    | a :: b :: rest => do
      let c ← decodeEscape [a, b]
      return c :: (← decodeSuffix rest)
    | [a] => do return [← decodeEscape [a]]
    | [] => do return [← decodeEscape []]
  | c :: rest => do return c :: (← decodeSuffix rest)
  | [] => .ok []

/-- The full tag of a handle and a suffix; `mark` is where an unknown handle is reported. -/
def resolveTag (r : Reader) (mark : Mark) (handle : Option String) (suffix : String) :
    Except Halt String :=
  match handle with
  | none => do return String.ofList (← decodeSuffix suffix.toList)
  | some handle =>
    match r.handles.lookup handle with
    | none => .error ((Problem.undefinedHandle handle).halt mark)
    | some expansion => do return expansion ++ String.ofList (← decodeSuffix suffix.toList)

structure Properties where
  anchor : Option String
  tag : Option String
  place : Option (Mark × Mark)
  deriving DecidableEq, Repr

/-- Reads an anchor and a tag in either order.  When the anchor comes second, the node starts at
the anchor. -/
def readProperties (r : Reader) : Except Halt (Properties × Reader) := do
  let t ← r.peek
  match t.kind with
  | .anchor name =>
    let r := r.skip
    let next ← r.peek
    match next.kind with
    | .tag handle suffix =>
      let tag ← r.resolveTag next.start handle suffix
      return (⟨some name, some tag, some (t.start, next.stop)⟩, r.skip)
    | _ => return (⟨some name, none, some (t.start, t.stop)⟩, r)
  | .tag handle suffix =>
    let r := r.skip
    let next ← r.peek
    match next.kind with
    | .anchor name =>
      let tag ← r.resolveTag next.start handle suffix
      return (⟨some name, some tag, some (next.start, next.stop)⟩, r.skip)
    | _ =>
      let tag ← r.resolveTag t.start handle suffix
      return (⟨none, some tag, some (t.start, t.stop)⟩, r)
  | _ => return (⟨none, none, none⟩, r)

def readContent (r : Reader) (block indentless : Bool) (p : Properties) : Step := do
  let t ← r.peek
  let (start, stop) := p.place.getD (t.start, t.start)
  match t.kind with
  | .scalar value plain =>
    give (.scalar (start.to t.stop) value plain p.anchor p.tag) r.skip
  | .flowSequenceStart =>
    give (.sequenceStart (start.to t.stop) p.anchor p.tag) (r.skip.push [.flowItems true])
  | .flowMappingStart =>
    give (.mappingStart (start.to t.stop) p.anchor p.tag) (r.skip.push [.flowKey true])
  | kind =>
    if indentless && kind = .blockEntry then
      give (.sequenceStart (start.to t.stop) p.anchor p.tag) (r.push [.indentlessItems])
    else if block && kind = .blockSequenceStart then
      give (.sequenceStart (start.to t.start) p.anchor p.tag) (r.skip.push [.blockItems])
    else if block && kind = .blockMappingStart then
      give (.mappingStart (start.to t.start) p.anchor p.tag) (r.skip.push [.blockKey])
    else if p.place.isSome then
      give (.scalar (start.to stop) [] true p.anchor p.tag) r
    else t.refuse .noContent

/-- A node: a reference, or properties and content. -/
def readNode (r : Reader) (block indentless : Bool) : Step := do
  let t ← r.peek
  match t.kind with
  | .reference name => give (.reference t.span name) r.skip
  | _ =>
    let (p, r) ← r.readProperties
    r.readContent block indentless p

/-- A node with further goals behind it, unless one of the given kinds of token follows: then the
node was left out at a place. -/
def nodeUnless (r : Reader) (isFollower : TokenKind → Bool) (node : Goal) (next : List Goal)
    (place : Token → Mark) : Step := do
  let t ← r.peek
  if isFollower t.kind then give (leftOut (place t)) (r.push next)
  else return (none, r.push (node :: next))

/-! ### block collections -/

def endsBlockItem (k : TokenKind) : Bool := k = .blockEntry || k = .blockEnd

def endsBlockPair (k : TokenKind) : Bool := k = .key || k = .value || k = .blockEnd

def endsIndentlessItem (k : TokenKind) : Bool := k = .blockEntry || endsBlockPair k

def blockItems (r : Reader) : Step := do
  let t ← r.peek
  if t.kind = .blockEntry then
    r.skip.nodeUnless endsBlockItem (.node true false) [.blockItems] fun _ => t.stop
  else if t.kind = .blockEnd then give (.sequenceEnd t.span) r.skip
  else t.refuse .noBlockEnd

/-- The items of a sequence that is not indented deeper than its key. -/
def indentlessItems (r : Reader) : Step := do
  let t ← r.peek
  if t.kind = .blockEntry then
    r.skip.nodeUnless endsIndentlessItem (.node true false) [.indentlessItems] fun _ => t.stop
  else give (.sequenceEnd (t.start.to t.start)) r

def blockKey (r : Reader) : Step := do
  let ⟨t, version⟩ ← r.peekReady
  if t.kind = .key then
    r.skip.nodeUnless endsBlockPair (.node true true) [.blockValue] fun _ => t.stop
  else if version.isLater && t.kind = .value then give (leftOut t.start) (r.push [.blockValue])
  else if t.kind = .blockEnd then give (.mappingEnd t.span) r.skip
  else t.refuse .noBlockEnd

def blockValue (r : Reader) : Step := do
  let t ← r.peek
  if t.kind = .value then
    r.skip.nodeUnless endsBlockPair (.node true true) [.blockKey] Token.stop
  else give (leftOut t.start) (r.push [.blockKey])

/-! ### flow collections -/

def endsFlowItem (k : TokenKind) : Bool := k = .flowEntry || k = .flowSequenceEnd

def endsFlowPair (k : TokenKind) : Bool := k = .flowEntry || k = .flowMappingEnd

/-- Moves behind the comma that separates an entry from the one before it. -/
def skipComma (r : Reader) (first : Bool) (closing : TokenKind) (p : String → Problem) :
    Except Halt Reader := do
  let t ← r.peek
  if first || t.kind = closing then return r
  else if t.kind = .flowEntry then return r.skip
  else t.refuse p

/-- The items of a flow sequence; one of them may be a single pair. -/
def flowItems (r : Reader) (first : Bool) : Step := do
  let r ← r.skipComma first .flowSequenceEnd .noItemSeparator
  let t ← r.peek
  if t.kind = .flowSequenceEnd then give (.sequenceEnd t.span) r.skip
  else if t.kind = .key then
    give (.mappingStart t.span none none) (r.push [.pairKey, .flowItems false])
  else return (none, r.push [.node false false, .flowItems false])

def pairKey (r : Reader) : Step := do
  let t ← r.peek
  r.skip.nodeUnless (fun k => k = .value || endsFlowItem k) (.node false false) [.pairValue]
    fun _ => t.stop

def pairValue (r : Reader) : Step := do
  let t ← r.peek
  if t.kind = .value then
    r.skip.nodeUnless endsFlowItem (.node false false) [.pairEnd] fun _ => t.stop
  else give (leftOut t.start) (r.push [.pairEnd])

def pairEnd (r : Reader) : Step := do
  let t ← r.peek
  give (.mappingEnd (t.start.to t.start)) r

def flowKey (r : Reader) (first : Bool) : Step := do
  let r ← r.skipComma first .flowMappingEnd .noPairSeparator
  let ⟨t, version⟩ ← r.peekReady
  if t.kind = .flowMappingEnd then give (.mappingEnd t.span) r.skip
  else if t.kind = .key then
    r.skip.nodeUnless (fun k => k = .value || endsFlowPair k) (.node false false)
      [.flowValue] fun _ => t.stop
  else if version.isLater && t.kind = .value then give (leftOut t.stop) (r.push [.flowValue])
  else return (none, r.push [.node false false, .flowNoValue])

def flowValue (r : Reader) : Step := do
  let t ← r.peek
  if t.kind = .value then
    r.skip.nodeUnless endsFlowPair (.node false false) [.flowKey false] fun _ => t.stop
  else give (leftOut t.start) (r.push [.flowKey false])

/-- The value that an entry of a flow mapping without a colon does not have. -/
def flowNoValue (r : Reader) : Step := do
  let t ← r.peek
  give (leftOut t.start) (r.push [.flowKey false])

/-! ### all goals -/

def meet (r : Reader) : Goal → Step
  | .anyDocument => r.anyDocument
  | .explicitDocument => r.explicitDocument
  | .documentContent => r.documentContent
  | .documentEnd => r.documentEnd
  | .node block indentless => r.readNode block indentless
  | .blockItems => r.blockItems
  | .indentlessItems => r.indentlessItems
  | .blockKey => r.blockKey
  | .blockValue => r.blockValue
  | .flowItems first => r.flowItems first
  | .pairKey => r.pairKey
  | .pairValue => r.pairValue
  | .pairEnd => r.pairEnd
  | .flowKey first => r.flowKey first
  | .flowValue => r.flowValue
  | .flowNoValue => r.flowNoValue

/-- Meets goals until none is left or a defect is met. -/
def readFrom : (fuel : Nat) → Reader → EventRun
  | 0, _ => ⟨[], none⟩
  | fuel + 1, r =>
    match r.goals with
    | [] => ⟨[], none⟩
    | goal :: goals =>
      match { r with goals := goals }.meet goal with
      | .error h => ⟨[], some h⟩
      | .ok (event, r) =>
        let more := readFrom fuel r
        { more with events := event.toList ++ more.events }

end Reader

/-- The events of the tokens of a text.  A token leads to a few goals, so the number of steps is
bounded by a multiple of the number of tokens. -/
def readEvents (run : TokenRun) : EventRun :=
  Reader.readFrom (8 * (run.tokens.length + 4)) (Reader.start run)

end YamlSpan
