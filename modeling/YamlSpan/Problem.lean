import YamlSpan.Cursor
import YamlSpan.Failure
import YamlSpan.Text.Utf8

/-!
# The defects that a text may have

* `Problem`           the defects, with what they were found at
* `Problem.message`   their texts
* `Problem.halt`      a defect at a place, as the reason to stop reading
-/

namespace YamlSpan

/-- A defect of a text.  A character is the one found instead of what was expected, a name that
of the token found. -/
inductive Problem where
  | missingColon
  | entryNotAllowed
  | keyNotAllowed
  | valueNotAllowed
  | noToken (found : Char)
  | noWord (found : Char)
  | noDigit (found : Char)
  | noDigitOrPoint (found : Char)
  | noSpace (found : Char)
  | noLineEnd (found : Char)
  | noTagEnd (found : Char)
  | noHandle (found : Char)
  | noHandleEnd (found : Char)
  | noUri (found : Char)
  | noUriEscape (found : Char)
  | badUriOctets (r : Text.Utf8.Refusal)
  | zeroIndentation
  | noBlockIndicator (found : Char)
  | deeperFirstLine
  | noEscapeDigits (count : Nat) (found : Char)
  | unknownEscape (found : Char)
  | unclosedQuote
  | separatorInQuote
  | noDocumentStart (token : String)
  | repeatedVersion
  | incompatibleVersion
  | repeatedHandle (handle : String)
  | contentAfterDocumentEnd (token : String)
  | undefinedHandle (handle : String)
  | noContent (token : String)
  | noBlockEnd (token : String)
  | noItemSeparator (token : String)
  | noPairSeparator (token : String)
  deriving DecidableEq, Repr

namespace Problem

open Text

def message : Problem → String
  | .missingColon => "could not find expected ':'"
  | .entryNotAllowed => "sequence entries are not allowed here"
  | .keyNotAllowed => "mapping keys are not allowed here"
  | .valueNotAllowed => "mapping values are not allowed here"
  | .noToken c => "found character " ++ quotedChar c ++ " that cannot start any token"
  | .noWord c => "expected alphabetic or numeric character, but found " ++ quotedChar c
  | .noDigit c => "expected a digit, but found " ++ quotedChar c
  | .noDigitOrPoint c => "expected a digit or '.', but found " ++ quotedChar c
  | .noSpace c => "expected ' ', but found " ++ quotedChar c
  | .noLineEnd c => "expected a comment or a line break, but found " ++ quotedChar c
  | .noTagEnd c => "expected '>' but found " ++ quotedChar c
  | .noHandle c => "expected '!', but found " ++ quotedChar c
  | .noHandleEnd c => "expected '!' but found " ++ quotedChar c
  | .noUri c => "expected URI, but found " ++ quotedChar c
  | .noUriEscape c =>
    "expected URI escape sequence of 2 hexdecimal numbers, but found " ++ quotedChar c
  | .badUriOctets r => r.message
  | .zeroIndentation => "expected indentation indicator in the range 1-9, but found 0"
  | .noBlockIndicator c => "expected chomping or indentation indicators, but found " ++ quotedChar c
  | .deeperFirstLine => "more indented follow up line than first in a block scalar"
  | .noEscapeDigits n c =>
    "expected escape sequence of " ++ toString n ++ " hexdecimal numbers, but found "
      ++ quotedChar c
  | .unknownEscape c => "found unknown escape character " ++ quotedChar c
  | .unclosedQuote => "found unexpected end of stream"
  | .separatorInQuote => "found unexpected document separator"
  | .noDocumentStart token =>
    "expected '<document start>', but found (" ++ quoted token ++ ",)"
  | .repeatedVersion => "found duplicate YAML directive"
  | .incompatibleVersion => "found incompatible YAML document (version 1.* is required)"
  | .repeatedHandle handle => "duplicate tag handle " ++ quoted handle
  | .contentAfterDocumentEnd token =>
    "found non-comment content after document end marker, (" ++ quoted token ++ ",)"
  | .undefinedHandle handle => "found undefined tag handle " ++ quoted handle
  | .noContent token => "expected the node content, but found " ++ quoted token
  | .noBlockEnd token => "expected <block end>, but found " ++ quoted token
  | .noItemSeparator token => "expected ',' or ']', but got " ++ quoted token
  | .noPairSeparator token => "expected ',' or '\x7d', but got " ++ quoted token

def sourceName : String := "<unicode string>"

def halt (p : Problem) (m : Mark) : Halt :=
  .failure (.ofProblem p.message ⟨sourceName, m.index, m.line, m.column⟩)

end Problem

def Cursor.fail {α : Type} (c : Cursor) (p : Problem) : Except Halt α := .error (p.halt c.mark)

def Cursor.refuse {α : Type} (c : Cursor) (p : Char → Problem) : Except Halt α :=
  c.fail (p (c.peek 0))

/-- Moves behind the rest of a line that holds at most a comment. -/
def Cursor.endLine (c : Cursor) : Except Halt Cursor :=
  let c := (c.skipWhile isSpace).skipComment
  if isLineStop (c.peek 0) then .ok c.lineBreak.2 else c.refuse .noLineEnd

end YamlSpan
