/-!
# Reading positions

A cursor is the rest of a text with the place where it starts.  Lines are counted at line feeds
and carriage returns; a byte order mark takes no column.  Behind the end of the text stands the
character `Cursor.finis`, which no readable text contains.

* `Cursor.peek`        a character ahead
* `Cursor.forward`     moves over characters
* `Cursor.skipWhile`   moves over a class of characters
* `Cursor.lineBreak`   reads one line break
-/

namespace YamlSpan

/-- A place in a text, counted from zero. -/
structure Mark where
  index : Nat
  line : Nat
  column : Nat
  deriving DecidableEq, Repr

/-- The place behind a character; `next` is the character that follows. -/
def Mark.after (m : Mark) (c : Char) (next : Option Char) : Mark :=
  if c == '\n' || (c == '\r' && next != some '\n') then ⟨m.index + 1, m.line + 1, 0⟩
  else if c == '\uFEFF' then ⟨m.index + 1, m.line, m.column⟩
  else ⟨m.index + 1, m.line, m.column + 1⟩

/-- The rest of a text and the place where it starts. -/
structure Cursor where
  rest : List Char
  mark : Mark
  deriving DecidableEq, Repr

namespace Cursor

/-- Stands behind the end of every text. -/
def finis : Char := Char.ofNat 0

def start (text : List Char) : Cursor := ⟨text, ⟨0, 0, 0⟩⟩

def peek (c : Cursor) (k : Nat) : Char := c.rest.getD k finis

def advance (c : Cursor) : Cursor :=
  match c.rest with
  | [] => c
  | ch :: rest => ⟨rest, c.mark.after ch rest.head?⟩

def forward : (count : Nat) → Cursor → Cursor
  | 0, c => c
  | count + 1, c => forward count c.advance

/-- Moves over a class of characters at the front of `rest`, which starts at `mark`. -/
def skipFrom (p : Char → Bool) : (rest : List Char) → (mark : Mark) → Cursor
  | [], mark => ⟨[], mark⟩
  | ch :: rest, mark =>
    if p ch then skipFrom p rest (mark.after ch rest.head?) else ⟨ch :: rest, mark⟩

def skipWhile (p : Char → Bool) (c : Cursor) : Cursor := skipFrom p c.rest c.mark

/-- The characters of a class that come next. -/
def run (p : Char → Bool) (c : Cursor) : List Char := c.rest.takeWhile p

/-- An upper bound on the number of steps that move over at least one character each. -/
def steps (c : Cursor) : Nat := c.rest.length + 1

end Cursor

/-! ### classes of characters -/

def isBreak (c : Char) : Bool :=
  c == '\n' || c == '\r' || c == '\u0085' || c == '\u2028' || c == '\u2029'

def isLineStop (c : Char) : Bool := c == Cursor.finis || isBreak c

def isStopOrSpace (c : Char) : Bool := isLineStop c || c == ' '

/-- A line break, the end, a space or a tab. -/
def isStopOrBlank (c : Char) : Bool := isStopOrSpace c || c == '\t'

def isSpace (c : Char) : Bool := c == ' '

def isSpaceOrTab (c : Char) : Bool := c == ' ' || c == '\t'

/-- A letter or digit of the ASCII alphabet, a hyphen or an underscore. -/
def isWordChar (c : Char) : Bool := c.isAlphanum || c == '-' || c == '_'

def isHexChar (c : Char) : Bool :=
  c.isDigit || ('a' ≤ c && c ≤ 'f') || ('A' ≤ c && c ≤ 'F')

namespace Cursor

/-- Reads a line break, which becomes a line feed unless it is a separator of lines or
paragraphs; reads nothing where there is none. -/
def lineBreak (c : Cursor) : List Char × Cursor :=
  match c.rest with
  | '\r' :: '\n' :: _ => (['\n'], c.forward 2)
  | ch :: _ =>
    if ch == '\n' || ch == '\r' || ch == '\u0085' then (['\n'], c.advance)
    else if isBreak ch then ([ch], c.advance)
    else ([], c)
  | [] => ([], c)

/-- Do three of a character follow, and then a blank or the end? -/
def isTriple (ch : Char) (c : Cursor) : Bool :=
  c.peek 0 == ch && c.peek 1 == ch && c.peek 2 == ch && isStopOrBlank (c.peek 3)

/-- Does something follow that looks like the marker of a document, on whatever column? -/
def isSeparator (c : Cursor) : Bool := c.isTriple '-' || c.isTriple '.'

def skipComment (c : Cursor) : Cursor :=
  if c.peek 0 == '#' then c.skipWhile fun ch => !isLineStop ch else c

/-- Moves over blanks, comments and line breaks; says whether there was a line break. -/
def skipGapWithin (blank : Char → Bool) : (fuel : Nat) → (crossed : Bool) → Cursor → Cursor × Bool
  | 0, crossed, c => (c, crossed)
  | fuel + 1, crossed, c =>
    let c := (c.skipWhile blank).skipComment
    match c.lineBreak with
    | ([], _) => (c, crossed)
    | (_, c) => skipGapWithin blank fuel true c

/-- Moves to the next token.  Tabs count as blanks inside flow collections only. -/
def skipGap (inFlow : Bool) (c : Cursor) : Cursor × Bool :=
  let c := if c.mark.index == 0 && c.peek 0 == '\uFEFF' then c.advance else c
  skipGapWithin (if inFlow then isSpaceOrTab else isSpace) c.steps false c

end Cursor

end YamlSpan
