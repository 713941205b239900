import YamlSpan.Token

/-!
# Block scalars

A block scalar has a header line with indicators for its indentation and its trailing line
breaks.  Its indentation is given by the header or is that of its deepest leading line.

* `readBlockScalar`   a block scalar from its `|` or `>`
-/

namespace YamlSpan

/-- What becomes of the line breaks at the end of a block scalar: all go, one stays, all stay. -/
inductive Chomping where
  | strip
  | clip
  | keep
  deriving DecidableEq, Repr

def Chomping.ofChar? : Char → Option Chomping
  | '+' => some .keep
  | '-' => some .strip
  | _ => none

structure BlockHeader where
  chomping : Chomping
  increment : Option Nat
  deriving DecidableEq, Repr

def readIncrement (c : Cursor) : Except Halt (Option Nat × Cursor) :=
  if (c.peek 0).isDigit then
    if c.peek 0 == '0' then c.fail .zeroIndentation
    else .ok (some (Numeral.hexValue (c.peek 0)), c.advance)
  else .ok (none, c)

def readChomping (c : Cursor) : Option Chomping × Cursor :=
  match Chomping.ofChar? (c.peek 0) with
  | some chomping => (some chomping, c.advance)
  | none => (none, c)

/-- Reads the two indicators, in either order. -/
def readBlockHeader (c : Cursor) : Except Halt (BlockHeader × Cursor) := do
  let (before, c) := readChomping c
  let (increment, c) ← readIncrement c
  let (after, c) := if before.isNone && increment.isSome then readChomping c else (none, c)
  if isStopOrSpace (c.peek 0) then return (⟨(before.or after).getD .clip, increment⟩, c)
  else c.refuse .noBlockIndicator

/-- What was read in front of a line: line breaks, the place behind the last of them, and the
cursor behind the spaces that follow. -/
structure Lead where
  breaks : List Char
  stop : Mark
  cursor : Cursor
  deriving DecidableEq, Repr

def skipSpacesTo (column : Int) : (fuel : Nat) → Cursor → Cursor
  | 0, c => c
  | fuel + 1, c =>
    if (c.mark.column : Int) < column && c.peek 0 == ' ' then skipSpacesTo column fuel c.advance
    else c

/-- Reads empty lines whose spaces do not go beyond the indentation. -/
def readLeadFrom (indent : Int) : (fuel : Nat) → (stop : Mark) → Cursor → Lead
  | 0, stop, c => ⟨[], stop, c⟩
  | fuel + 1, stop, c =>
    let c := skipSpacesTo indent c.steps c
    match c.lineBreak with
    | ([], _) => ⟨[], stop, c⟩
    | (text, c) =>
      let rest := readLeadFrom indent fuel c.mark c
      { rest with breaks := text ++ rest.breaks }

def readLead (indent : Int) (c : Cursor) : Lead := readLeadFrom indent c.steps c.mark c

/-- The leading lines of a scalar whose header gives no indentation: the breaks, the column at
which the first of them stands, and the deepest column reached. -/
structure Leading where
  lead : Lead
  first : Option Nat
  deepest : Nat
  deriving DecidableEq, Repr

def readLeadingFrom : (fuel : Nat) → (stop : Mark) → (first : Option Nat) → (deepest : Nat) →
    Cursor → Leading
  | 0, stop, first, deepest, c => ⟨⟨[], stop, c⟩, first, deepest⟩
  | fuel + 1, stop, first, deepest, c =>
    if c.peek 0 == ' ' then
      let c := c.advance
      readLeadingFrom fuel stop first (max deepest c.mark.column) c
    else
      match c.lineBreak with
      | ([], _) => ⟨⟨[], stop, c⟩, first, deepest⟩
      | (text, rest) =>
        let l := readLeadingFrom fuel rest.mark (first.or (some c.mark.column)) deepest rest
        { l with lead := { l.lead with breaks := text ++ l.lead.breaks } }

/-- The failure of a scalar whose first line is not its shallowest. -/
def deeperFirstLine (m : Mark) : Halt :=
  .failure (.marked (some Problem.deeperFirstLine.message)
    (some ⟨Problem.sourceName, m.index, m.line, m.column⟩) none none)

/-- Reads the leading lines and finds the indentation, which is at least `least`. -/
def readIndentation (least : Int) (c : Cursor) : Except Halt (Int × Lead) :=
  let l := readLeadingFrom c.steps c.mark none 0 c
  match l.first with
  | some first =>
    if 0 < first && first < l.deepest then .error (deeperFirstLine l.lead.cursor.mark)
    else .ok (max least l.deepest, l.lead)
  | none => .ok (max least l.deepest, l.lead)

/-- The lines of a block scalar: the text so far, the last line break, and what follows it. -/
structure BlockBody where
  text : List Char
  lastBreak : List Char
  lead : Lead
  deriving DecidableEq, Repr

/-- How a break between two lines is written when lines are folded: one between two lines that
do not start with a blank becomes a space, or nothing before empty lines. -/
def foldedBreak (text : List Char) (blankBefore blankAfter : Bool) (breaks : List Char) :
    List Char :=
  if text == ['\n'] && !blankBefore && !blankAfter then
    if breaks.isEmpty then [' '] else []
  else text

/-- Reads lines that have the indentation.  `least` is the indentation that the surroundings ask
for; if it is zero, a document marker ends the scalar. -/
def readBlockLines (folded : Bool) (least indent : Int) : (fuel : Nat) → BlockBody → BlockBody
  | 0, b => b
  | fuel + 1, b =>
    let c := b.lead.cursor
    if (c.mark.column : Int) != indent || c.rest.isEmpty then b
    else
      let line := c.run fun ch => !isLineStop ch
      let (lastBreak, behind) := (c.forward line.length).lineBreak
      let lead := readLead indent behind
      let next := lead.cursor
      let text := b.text ++ b.lead.breaks ++ line
      if (least == 0 && next.mark.column == 0 && next.isSeparator)
          || (next.mark.column : Int) != indent || next.rest.isEmpty then
        ⟨text, lastBreak, lead⟩
      else
        let between :=
          if folded then
            foldedBreak lastBreak (isSpaceOrTab (c.peek 0)) (isSpaceOrTab (next.peek 0)) lead.breaks
          else lastBreak
        readBlockLines folded least indent fuel ⟨text ++ between, lastBreak, lead⟩

def BlockBody.chomp (b : BlockBody) : Chomping → List Char
  | .strip => b.text
  | .clip => b.text ++ b.lastBreak
  | .keep => b.text ++ b.lastBreak ++ b.lead.breaks

/-- Reads a block scalar; `indent` is the indentation of its surroundings.  Gives its text, the
place where it ends, and the cursor behind it.  Behind empty lines that the scalar does not keep,
the cursor is at the next token. -/
def readBlockScalar (indent : Int) (c : Cursor) : Except Halt (List Char × Mark × Cursor) := do
  let folded := c.peek 0 == '>'
  let (header, c) ← readBlockHeader c.advance
  let c ← c.endLine
  let (least, indentation, lead) ←
    match header.increment with
    | some d => do
      let least := max (indent + 1) 1
      pure (least, least + d - 1, readLead (least + d - 1) c)
    | none => do
      let (indentation, lead) ← readIndentation (indent + 1) c
      pure (indent + 1, indentation, lead)
  let body := readBlockLines folded least indentation c.steps ⟨[], [], lead⟩
  let behind :=
    if header.chomping = .keep || body.lead.breaks.isEmpty then body.lead.cursor
    else (body.lead.cursor.skipGap false).1
  return (body.chomp header.chomping, body.lead.stop, behind)

end YamlSpan
