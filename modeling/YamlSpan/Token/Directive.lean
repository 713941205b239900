import YamlSpan.Token.Tag

/-!
# Directives

* `readDirective`   a directive line: a version, the declaration of a handle, or another one
-/

namespace YamlSpan

def readVersionNumber (c : Cursor) : Except Halt (Nat × Cursor) :=
  let digits := c.run Char.isDigit
  if digits.isEmpty then c.refuse .noDigit
  else match Numeral.read 10 digits with
    | .ok n => .ok (n.toNat, c.forward digits.length)
    | .error e => .error (.fault (.numeral e))

def readVersion (c : Cursor) : Except Halt (Version × Cursor) := do
  let (major, c) ← readVersionNumber (c.skipWhile isSpace)
  if c.peek 0 != '.' then c.refuse .noDigitOrPoint
  else
    let (minor, c) ← readVersionNumber c.advance
    if isStopOrSpace (c.peek 0) then return (⟨major, minor⟩, c) else c.refuse .noDigitOrPoint

/-- Reads the declaration of a handle. -/
def readHandleDirective (v : Version) (c : Cursor) : Except Halt (Directive × Cursor) := do
  let (handle, c) ← readHandle (c.skipWhile isSpace)
  if c.peek 0 != ' ' then c.refuse .noSpace
  else
    let (expansion, c) ← readUri v (c.skipWhile isSpace)
    if isStopOrSpace (c.peek 0) then return (.handle handle expansion, c) else c.refuse .noSpace

def isDirectiveChar (c : Char) : Bool := isWordChar c || c == ':' || c == '.'

/-- Reads what a directive says, starting behind its `%`. -/
def readDirectiveParts (v : Version) (c : Cursor) : Except Halt (Directive × Cursor) := do
  let name := c.run isDirectiveChar
  if name.isEmpty then c.refuse .noWord
  else
    let c := c.forward name.length
    if !isStopOrSpace (c.peek 0) then c.refuse .noWord
    else if String.ofList name = "YAML" then
      let (version, c) ← readVersion c
      return (.version version, c)
    else if String.ofList name = "TAG" then readHandleDirective v c
    else return (.other, c.skipWhile fun ch => !isLineStop ch)

def readDirective (v : Version) (c : Cursor) : Except Halt (Directive × Cursor) := do
  let (directive, c) ← readDirectiveParts v c.advance
  return (directive, ← c.endLine)

end YamlSpan
