import YamlSpan.Token

/-!
# Tags

A tag is a handle and a suffix, or a suffix between angle brackets.  Escapes `%XX` that follow
each other encode a text in UTF-8.

* `readHandle`   a tag handle such as `!`, `!!` or `!name!`
* `readUri`      the characters of a tag, escapes decoded
* `readTag`      a tag on a node
-/

namespace YamlSpan

/-- A character that may stand in a tag. -/
def isUriChar (v : Version) (c : Char) : Bool :=
  c.isAlphanum || "-;/?:@&=+$,_.!~*'()[]%".toList.contains c || (v.isLater && c == '#')

/-- Reads the octets of escapes `%XX` that follow each other. -/
def readOctets : (fuel : Nat) → Cursor → Except Halt (List Nat × Cursor)
  | 0, c => .ok ([], c)
  | fuel + 1, c =>
    if c.peek 0 != '%' then .ok ([], c)
    else
      let c := c.advance
      if !isHexChar (c.peek 0) then c.fail (.noUriEscape (c.peek 0))
      else if !isHexChar (c.peek 1) then c.fail (.noUriEscape (c.peek 1))
      else do
        let (octets, rest) ← readOctets fuel (c.forward 2)
        return (Numeral.hexNumber [c.peek 0, c.peek 1] :: octets, rest)

/-- Reads escapes that follow each other; together they encode a text. -/
def readEscapes (c : Cursor) : Except Halt (List Char × Cursor) := do
  let (octets, rest) ← readOctets c.steps c
  match Text.Utf8.decode octets with
  | .ok text => return (text, rest)
  | .error r => c.fail (.badUriOctets r)

def readUriChars (v : Version) : (fuel : Nat) → Cursor → Except Halt (List Char × Cursor)
  | 0, c => .ok ([], c)
  | fuel + 1, c =>
    if c.peek 0 == '%' then do
      let (text, c) ← readEscapes c
      let (more, c) ← readUriChars v fuel c
      return (text ++ more, c)
    else if isUriChar v (c.peek 0) then do
      let (more, rest) ← readUriChars v fuel c.advance
      return (c.peek 0 :: more, rest)
    else .ok ([], c)

/-- Reads the characters of a tag, of which there is at least one. -/
def readUri (v : Version) (c : Cursor) : Except Halt (String × Cursor) :=
  if isUriChar v (c.peek 0) then do
    let (text, c) ← readUriChars v c.steps c
    return (String.ofList text, c)
  else c.refuse .noUri

def readHandle (c : Cursor) : Except Halt (String × Cursor) :=
  if c.peek 0 != '!' then c.refuse .noHandle
  else
    let inner := c.advance
    if inner.peek 0 == ' ' then .ok ("!", inner)
    else
      let word := inner.run isWordChar
      let c := inner.forward word.length
      if c.peek 0 == '!' then .ok (String.ofList ('!' :: word ++ ['!']), c.advance)
      else c.refuse .noHandleEnd

/-- Does a second `!` come before the next space or the end of the line? -/
def hasHandle (c : Cursor) : Bool :=
  ((c.rest.drop 1).takeWhile fun ch => !isStopOrSpace ch).contains '!'

/-- Reads the handle and the suffix of a tag, up to what must be a space or the end of a line. -/
def readTagParts (v : Version) (c : Cursor) : Except Halt (TokenKind × Cursor) := do
  let (short, c) := if c.peek 1 == '!' then ("!!", c.advance) else ("!", c)
  if c.peek 1 == '<' then
    let (suffix, c) ← readUri v (c.forward 2)
    if c.peek 0 == '>' then return (.tag none suffix, c.advance) else c.refuse .noTagEnd
  else if isStopOrBlank (c.peek 1) then return (.tag none short, c.advance)
  else
    let (handle, c) ← if hasHandle c then readHandle c else pure (short, c.advance)
    let (suffix, c) ← readUri v c
    return (.tag (some handle) suffix, c)

def readTag (v : Version) (c : Cursor) : Except Halt (TokenKind × Cursor) := do
  let (kind, c) ← readTagParts v c
  if isStopOrSpace (c.peek 0) then return (kind, c) else c.refuse .noSpace

end YamlSpan
