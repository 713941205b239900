import YamlSpan.Token

/-!
# Plain scalars

* `readPlain`   a scalar without quotes
-/

namespace YamlSpan

/-- The characters of a plain scalar up to the next blank or indicator. -/
def plainWord (v : Version) (inFlow : Bool) : List Char → List Char
  | [] => []
  | ch :: rest =>
    if ch == ':' && !isStopOrBlank (rest.headD Cursor.finis) then ch :: plainWord v inFlow rest
    else if ch == '?' && v != Version.older then ch :: plainWord v inFlow rest
    else if isStopOrBlank ch || (!inFlow && ch == ':')
        || (inFlow && ",:?[]\x7b\x7d".toList.contains ch) then []
    else ch :: plainWord v inFlow rest

/-- Reads the lines between two lines of a plain scalar, with their breaks; none where something
like a document marker follows a break. -/
def readPlainBreaks : (fuel : Nat) → Cursor → Option (List Char) × Cursor
  | 0, c => (some [], c)
  | fuel + 1, c =>
    if c.peek 0 == ' ' then readPlainBreaks fuel c.advance
    else match c.lineBreak with
      | ([], _) => (some [], c)
      | (text, c) =>
        if c.isSeparator then (none, c)
        else
          let (more, c) := readPlainBreaks fuel c
          (more.map (text ++ ·), c)

/-- What stands between two words of a plain scalar: its text, none if the scalar cannot go on,
the cursor behind it, and whether it holds a line break. -/
structure PlainGap where
  text : Option (List Char)
  cursor : Cursor
  crossed : Bool
  deriving DecidableEq, Repr

def readPlainGap (c : Cursor) : PlainGap :=
  let spaces := c.run isSpace
  let c := c.forward spaces.length
  match c.lineBreak with
  | ([], _) => ⟨some spaces, c, false⟩
  | (text, c) =>
    if c.isSeparator then ⟨none, c, true⟩
    else
      let (breaks, c) := readPlainBreaks c.steps c
      let gap (breaks : List Char) :=
        (if text != ['\n'] then text else if breaks.isEmpty then [' '] else []) ++ breaks
      ⟨breaks.map gap, c, true⟩

/-- A plain scalar: its text, the place where it ends, the cursor behind it and the gap after
it, and whether that gap holds a line break. -/
structure PlainScalar where
  text : List Char
  stop : Mark
  cursor : Cursor
  crossed : Bool
  deriving DecidableEq, Repr

/-- Reads further words; `gap` is what stands before the next one. -/
def readPlainWords (v : Version) (inFlow : Bool) (indent : Int) :
    (fuel : Nat) → (gap : List Char) → PlainScalar → PlainScalar
  | 0, _, s => s
  | fuel + 1, gap, s =>
    if s.cursor.peek 0 == '#' then s
    else
      let word := plainWord v inFlow s.cursor.rest
      if word.isEmpty then s
      else
        let c := s.cursor.forward word.length
        let after := readPlainGap c
        let s : PlainScalar := ⟨s.text ++ gap ++ word, c.mark, after.cursor, after.crossed⟩
        let next := after.text.getD []
        if next.isEmpty || s.cursor.peek 0 == '#'
            || (!inFlow && (s.cursor.mark.column : Int) < indent + 1) then s
        else readPlainWords v inFlow indent fuel next s

def readPlain (v : Version) (inFlow : Bool) (indent : Int) (c : Cursor) : PlainScalar :=
  readPlainWords v inFlow indent c.steps [] ⟨[], c.mark, c, false⟩

end YamlSpan
