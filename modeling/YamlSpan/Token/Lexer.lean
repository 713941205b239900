import YamlSpan.Token.Anchor
import YamlSpan.Token.Block
import YamlSpan.Token.Directive
import YamlSpan.Token.Plain
import YamlSpan.Token.Quoted

/-!
# From characters to tokens

A scalar or a flow collection may turn out to be a key only when a colon follows it, and then a
token for the key goes in front of it.  The lexer remembers the places where such a key may
begin, at most one per level of flow collections, and holds back the tokens from the first of them
on.  A place is given up when its line ends.  Blocks begin and end by indentation.

* `Lexer.step`   reads the next tokens into the queue
* `lex`          the tokens of a text
-/

namespace YamlSpan

inductive FlowKind where
  | sequence
  | mapping
  deriving DecidableEq, Repr

/-- A place where a key may begin: the level of flow collections, the number of the token, and
whether a key has to begin there. -/
structure KeyPlace where
  level : Nat
  number : Nat
  required : Bool
  mark : Mark
  deriving DecidableEq, Repr

/-- The state of reading tokens.  `queue` holds tokens not handed out yet, `taken` counts the
others. -/
structure Lexer where
  cursor : Cursor
  version : Version
  queue : List Token
  taken : Nat
  flow : List FlowKind
  indent : Int
  indents : List Int
  keyAllowed : Bool
  keyPlaces : List KeyPlace
  finished : Bool
  deriving DecidableEq, Repr

namespace Lexer

def start (text : List Char) : Lexer :=
  { cursor := .start text, version := .latest, queue := [], taken := 0, flow := [], indent := -1
    indents := [], keyAllowed := true, keyPlaces := [], finished := false }

def level (s : Lexer) : Nat := s.flow.length

def inFlow (s : Lexer) : Bool := !s.flow.isEmpty

def column (s : Lexer) : Int := s.cursor.mark.column

/-- Queues a token that ends at the given cursor, where reading goes on. -/
def emit (s : Lexer) (kind : TokenKind) (behind : Cursor) : Lexer :=
  { s with cursor := behind, queue := s.queue ++ [⟨kind, s.cursor.mark, behind.mark⟩] }

def emitChars (s : Lexer) (kind : TokenKind) (count : Nat) : Lexer :=
  s.emit kind (s.cursor.forward count)

def allowKey (s : Lexer) (allowed : Bool) : Lexer := { s with keyAllowed := allowed }

/-! ### places of keys -/

/-- A key that must begin at a place whose line has ended is a failure. -/
def fails (s : Lexer) (keys : List KeyPlace) : Except Halt Unit :=
  if keys.any (·.required) then s.cursor.fail .missingColon else .ok ()

/-- Is a place too far back for a key to begin there? -/
def isExpired (s : Lexer) (k : KeyPlace) : Bool :=
  k.mark.line != s.cursor.mark.line || 1024 < s.cursor.mark.index - k.mark.index

def dropExpired (s : Lexer) : Except Halt Lexer := do
  s.fails (s.keyPlaces.filter s.isExpired)
  return { s with keyPlaces := s.keyPlaces.filter fun k => !s.isExpired k }

def dropKey (s : Lexer) : Except Halt Lexer := do
  s.fails (s.keyPlaces.filter (·.level == s.level))
  return { s with keyPlaces := s.keyPlaces.filter (·.level != s.level) }

def markKey (s : Lexer) : Except Halt Lexer :=
  if s.keyAllowed then do
    let s ← s.dropKey
    return { s with
      keyPlaces := s.keyPlaces ++ [⟨s.level, s.taken + s.queue.length,
        !s.inFlow && s.indent == s.column, s.cursor.mark⟩] }
  else .ok s

/-! ### indentation -/

/-- The ends of the blocks indented deeper than a column, and what is left open. -/
def unwindTo (column : Int) (closing : Token) : (indent : Int) → (indents : List Int) →
    List Token × Int × List Int
  | indent, [] => ([], indent, [])
  | indent, outer :: indents =>
    if column < indent then
      let (tokens, rest) := unwindTo column closing outer indents
      (closing :: tokens, rest)
    else ([], indent, outer :: indents)

def unwind (s : Lexer) (column : Int) : Lexer :=
  if s.inFlow then s
  else
    let (tokens, indent, indents) :=
      unwindTo column ⟨.blockEnd, s.cursor.mark, s.cursor.mark⟩ s.indent s.indents
    { s with queue := s.queue ++ tokens, indent := indent, indents := indents }

/-- Begins a block at a column deeper than the current one; `place` is where its token goes. -/
def indentTo (s : Lexer) (column : Int) (kind : TokenKind) (mark : Mark) (place : Nat) :
    Lexer :=
  if !s.inFlow && s.indent < column then
    { s with
      indent := column
      indents := s.indent :: s.indents
      queue := s.queue.insertIdx place ⟨kind, mark, mark⟩ }
  else s

/-! ### the next tokens -/

def lexEnd (s : Lexer) : Except Halt Lexer := do
  let s ← (s.unwind (-1)).dropKey
  return { (s.allowKey false).emit .streamEnd s.cursor with keyPlaces := [], finished := true }

/-- A directive; a version is in force from here on. -/
def lexDirective (s : Lexer) : Except Halt Lexer := do
  let s ← (s.unwind (-1)).dropKey
  let (directive, behind) ← readDirective s.version s.cursor
  let s := (s.allowKey false).emit (.directive directive) behind
  match directive with
  | .version v => return { s with version := v }
  | _ => return s

def lexMarker (s : Lexer) (kind : TokenKind) : Except Halt Lexer := do
  let s ← (s.unwind (-1)).dropKey
  return (s.allowKey false).emitChars kind 3

def lexFlowStart (s : Lexer) (kind : TokenKind) (flow : FlowKind) : Except Halt Lexer := do
  let s ← s.markKey
  return ({ s with flow := flow :: s.flow }.allowKey true).emitChars kind 1

def lexFlowEnd (s : Lexer) (kind : TokenKind) : Except Halt Lexer := do
  let s ← s.dropKey
  return ({ s with flow := s.flow.tail }.allowKey false).emitChars kind 1

/-- A comma. -/
def lexFlowEntry (s : Lexer) : Except Halt Lexer := do
  let s ← (s.allowKey true).dropKey
  return s.emitChars .flowEntry 1

/-- A hyphen in front of an entry. -/
def lexBlockEntry (s : Lexer) : Except Halt Lexer := do
  if !s.inFlow && !s.keyAllowed then s.cursor.fail .entryNotAllowed
  else
    let s := s.indentTo s.column .blockSequenceStart s.cursor.mark s.queue.length
    let s ← (s.allowKey true).dropKey
    return s.emitChars .blockEntry 1

/-- A question mark in front of a key. -/
def lexKey (s : Lexer) : Except Halt Lexer := do
  if !s.inFlow && !s.keyAllowed then s.cursor.fail .keyNotAllowed
  else
    let s := s.indentTo s.column .blockMappingStart s.cursor.mark s.queue.length
    let s ← (s.allowKey !s.inFlow).dropKey
    return s.emitChars .key 1

/-- Puts the token for a key in front of what turned out to be one. -/
def insertKey (s : Lexer) (k : KeyPlace) : Lexer :=
  let place := k.number - s.taken
  let s := { s with
    keyPlaces := s.keyPlaces.filter (·.level != s.level)
    queue := s.queue.insertIdx place ⟨.key, k.mark, k.mark⟩ }
  s.indentTo k.mark.column .blockMappingStart k.mark place

/-- A colon in front of a value. -/
def lexValue (s : Lexer) : Except Halt Lexer := do
  match s.keyPlaces.find? (·.level == s.level) with
  | some k => return ((s.insertKey k).allowKey false).emitChars .value 1
  | none =>
    if !s.inFlow && !s.keyAllowed then s.cursor.fail .valueNotAllowed
    else
      let s := s.indentTo s.column .blockMappingStart s.cursor.mark s.queue.length
      let s ← (s.allowKey !s.inFlow).dropKey
      return s.emitChars .value 1

/-- A reference or an anchor. -/
def lexName (s : Lexer) (kind : String → TokenKind) : Except Halt Lexer := do
  let s ← s.markKey
  let (name, behind) ← readName s.cursor
  return (s.allowKey false).emit (kind name) behind

def lexTag (s : Lexer) : Except Halt Lexer := do
  let s ← s.markKey
  let (kind, behind) ← readTag s.version s.cursor
  return (s.allowKey false).emit kind behind

def lexBlockScalar (s : Lexer) : Except Halt Lexer := do
  let s ← (s.allowKey true).dropKey
  let (text, stop, behind) ← readBlockScalar s.indent s.cursor
  return { s with
    cursor := behind, queue := s.queue ++ [⟨.scalar (.ofChars text) false, s.cursor.mark, stop⟩] }

def lexQuoted (s : Lexer) : Except Halt Lexer := do
  let s ← s.markKey
  let (text, behind) ← readQuoted s.cursor
  return (s.allowKey false).emit (.scalar text false) behind

/-- A plain scalar; a key may begin on the line behind it. -/
def lexPlain (s : Lexer) : Except Halt Lexer := do
  let s ← s.markKey
  let p := readPlain s.version s.inFlow s.indent s.cursor
  return { s with
    cursor := p.cursor
    keyAllowed := p.crossed
    queue := s.queue ++ [⟨.scalar (.ofChars p.text) true, s.cursor.mark, p.stop⟩] }

/-! ### which token comes next -/

/-- Does the colon here stand in front of a value? -/
def isValue (s : Lexer) : Bool :=
  isStopOrBlank (s.cursor.peek 1) ||
    if s.version = .older then s.inFlow
    else match s.flow with
      | .mapping :: _ => (s.queue.getLast?.map (·.kind)) != some .value
      | _ => false

/-- A character that begins no plain scalar unless what follows allows it. -/
def isSpecial (c : Char) : Bool :=
  isStopOrBlank c || "-?:,[]\x7b\x7d#&*!|>'\"%@\x60".toList.contains c

/-- Does a plain scalar begin here? -/
def isPlain (s : Lexer) : Bool :=
  let ch := s.cursor.peek 0
  let next := s.cursor.peek 1
  !isSpecial ch
    || (!isStopOrBlank next && (ch == '-' || (!s.inFlow && (ch == '?' || ch == ':'))))
    || (s.version != .older && s.inFlow && ch == ':' && !isSpaceOrTab next)

def dispatch (s : Lexer) : Except Halt Lexer :=
  let c := s.cursor
  let ch := c.peek 0
  let atMargin := c.mark.column == 0
  if c.rest.isEmpty then s.lexEnd
  else if ch == '%' && atMargin then s.lexDirective
  else if atMargin && c.isTriple '-' then s.lexMarker .documentStart
  else if atMargin && c.isTriple '.' then s.lexMarker .documentEnd
  else if ch == '[' then s.lexFlowStart .flowSequenceStart .sequence
  else if ch == '\x7b' then s.lexFlowStart .flowMappingStart .mapping
  else if ch == ']' then s.lexFlowEnd .flowSequenceEnd
  else if ch == '\x7d' then s.lexFlowEnd .flowMappingEnd
  else if ch == ',' then s.lexFlowEntry
  else if ch == '-' && isStopOrBlank (c.peek 1) then s.lexBlockEntry
  else if ch == '?' && (s.inFlow || isStopOrBlank (c.peek 1)) then s.lexKey
  else if ch == ':' && s.isValue then s.lexValue
  else if ch == '*' then s.lexName .reference
  else if ch == '&' then s.lexName .anchor
  else if ch == '!' then s.lexTag
  else if (ch == '|' || ch == '>') && !s.inFlow then s.lexBlockScalar
  else if ch == '\'' || ch == '"' then s.lexQuoted
  else if s.isPlain then s.lexPlain
  else c.refuse .noToken

/-- Moves to the next token; a key may begin behind a line break outside flow collections. -/
def skipGap (s : Lexer) : Lexer :=
  let (cursor, crossed) := s.cursor.skipGap s.inFlow
  { s with cursor := cursor, keyAllowed := s.keyAllowed || (crossed && !s.inFlow) }

/-- Reads the next tokens into the queue. -/
def step (s : Lexer) : Except Halt Lexer := do
  let s ← s.skipGap.dropExpired
  (s.unwind s.column).dispatch

/-! ### handing out tokens -/

/-- Is the first token of the queue a place where a key may begin? -/
def holdsBack (s : Lexer) : Bool := s.keyPlaces.any (·.number == s.taken)

/-- Hands out the tokens at the front of the queue that nothing can come in front of any more. -/
def release (s : Lexer) : (queue : List Token) → List ReadyToken × Lexer
  | [] => ([], { s with queue := [] })
  | token :: queue =>
    if !s.finished && s.holdsBack then ([], { s with queue := token :: queue })
    else
      let (ready, rest) := release { s with taken := s.taken + 1 } queue
      (⟨token, s.version⟩ :: ready, rest)

/-- Gives up expired places once there is a token to hand out. -/
def refresh (s : Lexer) : Except Halt Lexer :=
  if s.finished || s.queue.isEmpty then .ok s else s.dropExpired

def lexFrom : (fuel : Nat) → Lexer → TokenRun
  | 0, _ => ⟨[], none⟩
  | fuel + 1, s =>
    match s.step >>= refresh with
    | .error h => ⟨[], some h⟩
    | .ok s =>
      let (ready, s) := s.release s.queue
      if s.finished then ⟨ready, none⟩
      else
        let more := lexFrom fuel s
        { more with tokens := ready ++ more.tokens }

end Lexer

/-- The tokens of a text.  Every step but the last moves over a character, or ends the text. -/
def lex (text : List Char) : TokenRun := (Lexer.start text).lexFrom (text.length + 2)

end YamlSpan
