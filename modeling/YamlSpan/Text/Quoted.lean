import YamlSpan.Text.CodePoint
import YamlSpan.Text.Printable

/-!
# Quoted texts in messages

A message shows a text between single quotes, or between double quotes when the text has a single
quote and no double one.  The backslash and the quote in use are escaped, line breaks and tabs
have short escapes, and what is not printable is written by its number in hexadecimal.

* `quoted`       a text as a message shows it
* `quotedChar`   the same for one character
-/

namespace YamlSpan.Text

/-- `width` hexadecimal digits of `n`, the last `width` if there are more -/
def hexDigits : (width n : Nat) → List Char
  | 0, _ => []
  | width + 1, n => hexDigits width (n / 16) ++ [Nat.digitChar (n % 16)]

/-- A character inside quotes of the given kind. -/
def escapedChar (quote c : Char) : List Char :=
  if c == '\\' || c == quote then ['\\', c]
  else if c == '\n' then ['\\', 'n']
  else if c == '\r' then ['\\', 'r']
  else if c == '\t' then ['\\', 't']
  else if isPrintable c then [c]
  else if c.toNat < 0x100 then '\\' :: 'x' :: hexDigits 2 c.toNat
  else if c.toNat < 0x10000 then '\\' :: 'u' :: hexDigits 4 c.toNat
  else '\\' :: 'U' :: hexDigits 8 c.toNat

/-- A code point inside quotes of the given kind; a surrogate is not printable. -/
def escaped (quote : Char) : CodePoint → List Char
  | .char c => escapedChar quote c
  | .surrogate index => '\\' :: 'u' :: hexDigits 4 (0xd800 + index.val)

def quoteFor (text : Text) : Char :=
  if text.contains (.char '\'') && !text.contains (.char '"') then '"' else '\''

def quotedChars (text : Text) : List Char :=
  quoteFor text :: (text.flatMap (escaped (quoteFor text)) ++ [quoteFor text])

def quoted (text : Text) : String := String.ofList (quotedChars text)

def quotedChar (c : Char) : String := quoted [.char c]

end YamlSpan.Text
