import YamlSpan.Diagnostic
import YamlSpan.Event
import YamlSpan.Position
import YamlSpan.Tag
import YamlSpan.Text.Quoted

/-!
# Assembling raw documents from events

An assembly keeps the collections that are still open on a stack, innermost first.  A finished
node goes to the collection on top, or becomes the root of the open document.  Anchors live as
long as their document and are bound when their node is finished, so a reference never stands for
a node around it.  An action that meets a fault keeps what it did before.

* `Assembly.takeEvent`   one event
* `Assembly.breakOff`    a failure: the open document is closed with what it has
-/

namespace YamlSpan

/-- A key that waits for its value. -/
structure WaitingKey where
  node : Option RawNode
  start : Int
  deriving Repr

def WaitingKey.stop (k : WaitingKey) : Int :=
  match k.node with
  | some node => node.span.stop
  | none => k.start

/-- What an open collection holds so far. -/
inductive Content where
  | sequence (items : List (Option RawNode))
  | mapping (entries : List RawEntry) (waiting : Option WaitingKey)
  deriving Repr

/-- A collection whose end has not been seen. -/
structure OpenCollection where
  start : Int
  anchor : Option String
  anchorStop : Int
  content : Content
  deriving Repr

def OpenCollection.node (c : OpenCollection) (stop : Int) : RawNode :=
  match c.content with
  | .sequence items => .sequence ⟨c.start, max stop c.start⟩ items
  | .mapping entries _ => .map ⟨c.start, max stop c.start⟩ entries

def OpenCollection.isWaiting (c : OpenCollection) : Bool :=
  match c.content with
  | .sequence _ => false
  | .mapping _ waiting => waiting.isSome

/-- The entry that a value completes. -/
def WaitingKey.entry (k : WaitingKey) (value : Option RawNode) (stop : Int) : RawEntry :=
  .mk ⟨k.start, max stop k.stop⟩ k.node value

/-- What an assembly knows of its input as a whole. -/
structure Source where
  text : Text
  tags : TagRegistry
  deriving Repr

/-- The state of assembling.  `base` is the offset of the text the events were read from. -/
structure Assembly where
  documents : List RawDocument
  current : Option RawDocument
  stack : List OpenCollection
  anchors : List (String × RawNode)
  base : Int
  deriving Repr

namespace Assembly

def initial : Assembly := ⟨[], none, [], [], 0⟩

/-- An action on an assembly that may meet a fault. -/
abbrev Action (α : Type) := EStateM Fault Assembly α

/-- From now on events are read from the text at `base`. -/
def moveTo (base : Int) : Action Unit := modify fun c => { c with base := base }

/-- A span of the text under way as a span of the whole text. -/
def shifted (span : Span) : Action Span := do
  let c ← get
  return ⟨c.base + span.start, c.base + span.stop⟩

def openDocument : Action RawDocument := do
  match (← get).current with
  | some d => return d
  | none => throw .outsideDocument

def report (reason : String) (span : Span) (isWarning : Bool) : Action Unit := do
  let d ← openDocument
  let d := { d with diagnostics := d.diagnostics ++ [⟨reason, span, isWarning⟩] }
  modify fun c => { c with current := some d }

/-! ### documents -/

/-- Opens a document; what was open before is given up. -/
def startDocument (start : Int) : Action Unit :=
  modify fun c =>
    { c with current := some ⟨⟨start, start⟩, none, []⟩, stack := [], anchors := [] }

def endDocument (stop : Int) : Action Unit := do
  let d ← openDocument
  modify fun c =>
    { c with
      documents := c.documents ++ [{ d with span := ⟨d.span.start, max stop d.span.start⟩ }]
      current := none }

/-! ### nodes -/

/-- Does a key have the text of an earlier one? -/
def isRepeated (text : Text) (entries : List RawEntry) (key : Option RawNode) : Bool :=
  entries.any fun e => keyText text e.key == keyText text key

/-- Attaches a finished node, or the place of one that was left out, to its container. -/
def add (src : Source) (node : Option RawNode) (span : Span) : Action Unit := do
  match (← get).stack with
  | [] =>
    let d ← openDocument
    modify fun c => { c with current := some { d with root := node } }
  | top :: rest =>
    match top.content with
    | .sequence items =>
      let content := .sequence (items ++ [node])
      modify fun c => { c with stack := { top with content } :: rest }
    | .mapping entries none =>
      let content := .mapping entries (some ⟨node, span.start⟩)
      modify fun c => { c with stack := { top with content } :: rest }
    | .mapping entries (some key) =>
      if isRepeated src.text entries key.node then
        report duplicateKey ⟨key.start, key.stop⟩ false
      let content := .mapping (entries ++ [key.entry node span.stop]) none
      modify fun c => { c with stack := { top with content } :: rest }

/-- The report that a tag calls for on a node of a kind. -/
def tagReport? (tags : TagRegistry) (tag : Option String) (kind : TagKind) : Option String :=
  match tag with
  | none => none
  | some tag =>
    if tag = Tag.nonSpecific then none
    else match tags.lookup tag with
      | none => some ("unknown tag !<" ++ tag ++ ">")
      | some expected =>
        if expected = kind then none
        else some ("unacceptable node kind for !<" ++ tag ++ "> tag; it should be \""
          ++ expected.name ++ "\", not \"" ++ kind.name ++ "\"")

/-- Reports a tag that is unknown or stands on a node of the wrong kind. -/
def checkTag (src : Source) (tag : Option String) (kind : TagKind) (span : Span) : Action Unit := do
  if let some reason := tagReport? src.tags tag kind then
    report reason span false

/-- Binds an anchor to a finished node; a name bound before draws a warning. -/
def bindAnchor (anchor : Option String) (node : RawNode) (span : Span) : Action Unit := do
  if let some name := anchor then
    if ((← get).anchors.lookup name).isSome then
      report ("found duplicate anchor " ++ Text.quoted name) span true
    modify fun c => { c with anchors := Assoc.put name node c.anchors }

/-- Does an event stand for a node that was left out? -/
def isLeftOut (span : Span) (value : Text) (plain : Bool) (anchor tag : Option String) : Bool :=
  value.isEmpty && plain && tag.isNone && anchor.isNone && span.start == span.stop

/-- A scalar: nothing where it was left out, else a scalar or an inclusion. -/
def scalar (src : Source) (span : Span) (value : Text) (plain : Bool)
    (anchor tag : Option String) : Action Unit := do
  if isLeftOut span value plain anchor tag then
    add src none span
  else if tag = some Tag.inclusion then
    bindAnchor anchor (.inclusion span value) span
    add src (some (.inclusion span value)) span
  else
    checkTag src tag .scalar span
    bindAnchor anchor (.scalar span value plain tag) span
    add src (some (.scalar span value plain tag)) span

/-- A reference, which stands for the node last bound to its name. -/
def reference (src : Source) (span : Span) (name : String) : Action Unit := do
  let target := (← get).anchors.lookup name
  if target.isNone then
    report ("found undefined alias " ++ Text.quoted name) span false
  add src (some (.reference span name target)) span

/-- Opens a collection. -/
def openCollection (src : Source) (kind : TagKind) (content : Content) (span : Span)
    (anchor tag : Option String) : Action Unit := do
  checkTag src tag kind span
  modify fun c => { c with stack := ⟨span.start, anchor, span.stop, content⟩ :: c.stack }

def pop : Action OpenCollection := do
  match (← get).stack with
  | [] => throw .nothingOpen
  | top :: rest =>
    modify fun c => { c with stack := rest }
    return top

/-- Closes the innermost collection; a key still waiting gets no value. -/
def close (src : Source) (stop : Int) : Action Unit := do
  if ((← get).stack.head?.map OpenCollection.isWaiting).getD false then
    add src none ⟨stop, stop⟩
  let top ← pop
  let node := top.node stop
  bindAnchor top.anchor node ⟨node.span.start, top.anchorStop⟩
  add src (some node) node.span

def closeAll (src : Source) (stop : Int) : (count : Nat) → Action Unit
  | 0 => pure ()
  | count + 1 => do
    close src stop
    closeAll src stop count

/-! ### events and failures -/

def takeEvent (src : Source) (event : Event) : Action Unit := do
  match event with
  | .documentStart span => startDocument (← shifted span).start
  | .documentEnd span => endDocument (← shifted span).stop
  | .scalar span value plain anchor tag => scalar src (← shifted span) value plain anchor tag
  | .reference span name => reference src (← shifted span) name
  | .sequenceStart span anchor tag =>
    openCollection src .sequence (.sequence []) (← shifted span) anchor tag
  | .mappingStart span anchor tag =>
    openCollection src .mapping (.mapping [] none) (← shifted span) anchor tag
  | .sequenceEnd span => close src (← shifted span).stop
  | .mappingEnd span => close src (← shifted span).stop

def takeAll (src : Source) : List Event → Action Unit
  | [] => pure ()
  | event :: rest => do
    takeEvent src event
    takeAll src rest

def lineStop (text : Text) (index : Nat) : Nat :=
  index + ((text.drop index).takeWhile fun c => !isLineEnd c).length

/-- Does a line that starts here start a document? -/
def isMarker : Text → Bool
  | .char '-' :: .char '-' :: .char '-' :: [] => true
  | .char '-' :: .char '-' :: .char '-' :: c :: _ =>
    c == .char ' ' || c == .char '\t' || isLineEnd c
  | _ => false

/-- The first document marker in a text whose first code point has the given offset and follows
the given one. -/
def markerFrom : (previous : Option CodePoint) → (offset : Nat) → Text → Option Nat
  | _, _, [] => none
  | previous, offset, c :: rest =>
    if (previous.map isLineEnd).getD true && isMarker (c :: rest) then some offset
    else markerFrom (some c) (offset + 1) rest

/-- The first document marker at or behind an offset. -/
def nextMarker (text : Text) (index : Nat) : Option Nat :=
  markerFrom (if index = 0 then none else text[index - 1]?) index (text.drop index)

/-- The offset of a failure, which is inside the text. -/
def failureOffset (src : Source) (base : Int) (f : Failure) : Nat :=
  match f.index? with
  | some index => (min (base + index) src.text.length).toNat
  | none => src.text.length

/-- Opens a document for a failure that met none: it starts where the last one ended. -/
def requireDocument (offset : Nat) : Action Unit := do
  let c ← get
  if c.current.isNone then
    startDocument (min ((c.documents.getLast?.map (·.span.stop)).getD 0) offset)

/-- Records a failure and closes the open document with all that was assembled before.  The next
document starts at the marker that is returned; without one the document takes up the rest of the
text. -/
def breakOff (src : Source) (f : Failure) : Action (Option Nat) := do
  let base := (← get).base
  let offset := failureOffset src base f
  requireDocument offset
  report f.reason ⟨offset, lineStop src.text offset⟩ false
  closeAll src offset (← get).stack.length
  let resume := nextMarker src.text (max offset (base + 1).toNat)
  endDocument (resume.getD src.text.length)
  return resume

end Assembly

end YamlSpan
