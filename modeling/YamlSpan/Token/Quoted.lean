import YamlSpan.Token

/-!
# Quoted scalars

* `readQuoted`   a scalar in single or double quotes
-/

namespace YamlSpan

/-- The characters that an escape of one letter stands for. -/
def simpleEscapes : List (Char × Char) :=
  [('0', '\x00'), ('a', '\x07'), ('b', '\x08'), ('t', '\t'), ('\t', '\t'), ('n', '\n'),
    ('v', '\x0b'), ('f', '\x0c'), ('r', '\r'), ('e', '\x1b'), (' ', ' '), ('"', '"'), ('/', '/'),
    ('\\', '\\'), ('N', '\u0085'), ('_', '\u00a0'), ('L', '\u2028'), ('P', '\u2029')]

/-- How many hexadecimal digits follow an escape letter. -/
def codeEscapes : List (Char × Nat) := [('x', 2), ('u', 4), ('U', 8)]

def codePointOf (code : Nat) : Except Halt CodePoint :=
  if 0x7fffffff < code then .error (.fault .beyondMachineInteger)
  else if 0x10ffff < code then .error (.fault .notCharacter)
  else .ok (.ofNat code)

/-- Reads line breaks between the lines of a quoted scalar, with the blanks around them. -/
def readQuotedBreaks : (fuel : Nat) → Cursor → Except Halt (List Char × Cursor)
  | 0, c => .ok ([], c)
  | fuel + 1, c =>
    if c.isSeparator then c.fail .separatorInQuote
    else
      let c := c.skipWhile isSpaceOrTab
      match c.lineBreak with
      | ([], _) => .ok ([], c)
      | (text, c) => do
        let (more, c) ← readQuotedBreaks fuel c
        return (text ++ more, c)

/-- Reads an escape, starting behind its backslash. -/
def readEscape (c : Cursor) : Except Halt (Text × Cursor) :=
  let ch := c.peek 0
  match simpleEscapes.lookup ch, codeEscapes.lookup ch with
  | some meaning, _ => .ok ([.char meaning], c.advance)
  | none, some count =>
    let c := c.advance
    let digits := (c.rest.take count).takeWhile isHexChar
    if digits.length < count then c.fail (.noEscapeDigits count (c.peek digits.length))
    else do
      let meaning ← codePointOf (Numeral.hexNumber digits)
      return ([meaning], c.forward count)
  | none, none =>
    if isBreak ch then do
      let (breaks, c) ← readQuotedBreaks c.steps c.lineBreak.2
      return (.ofChars breaks, c)
    else c.refuse .unknownEscape

/-- A character that stands for itself in both kinds of quotes. -/
def isPlainInQuotes (c : Char) : Bool :=
  !(isStopOrBlank c || c == '\'' || c == '"' || c == '\\')

/-- Reads characters other than blanks and the closing quote. -/
def readQuotedWord (quote : Char) : (fuel : Nat) → Cursor → Except Halt (Text × Cursor)
  | 0, c => .ok ([], c)
  | fuel + 1, c => do
    let ch := c.peek 0
    let part : Option (Text × Cursor) ←
      if isPlainInQuotes ch then pure (some ([.char ch], c.advance))
      else if quote == '\'' then
        if ch == '\'' && c.peek 1 == '\'' then pure (some ([.char '\''], c.forward 2))
        else if ch == '"' || ch == '\\' then pure (some ([.char ch], c.advance))
        else pure none
      else if ch == '\'' then pure (some ([.char ch], c.advance))
      else if ch == '\\' then some <$> readEscape c.advance
      else pure none
    match part with
    | none => return ([], c)
    | some (text, c) =>
      let (more, c) ← readQuotedWord quote fuel c
      return (text ++ more, c)

/-- Reads blanks and line breaks: a break becomes a space, or the breaks that follow it. -/
def readQuotedGap (c : Cursor) : Except Halt (List Char × Cursor) := do
  let blanks := c.run isSpaceOrTab
  let c := c.forward blanks.length
  if c.rest.isEmpty then c.fail .unclosedQuote
  else match c.lineBreak with
    | ([], _) => return (blanks, c)
    | (text, c) =>
      let (breaks, c) ← readQuotedBreaks c.steps c
      return ((if text != ['\n'] then text else if breaks.isEmpty then [' '] else []) ++ breaks, c)

def readQuotedText (quote : Char) : (fuel : Nat) → Cursor → Except Halt (Text × Cursor)
  | 0, c => .ok ([], c)
  | fuel + 1, c => do
    let (word, c) ← readQuotedWord quote c.steps c
    if c.peek 0 == quote then return (word, c.advance)
    else
      let (gap, c) ← readQuotedGap c
      let (more, c) ← readQuotedText quote fuel c
      return (word ++ .ofChars gap ++ more, c)

def readQuoted (c : Cursor) : Except Halt (Text × Cursor) :=
  readQuotedText (c.peek 0) c.steps c.advance

end YamlSpan
