import YamlSpan.Event.Grammar
import YamlSpan.Token.Lexer

/-!
# The events of a text

A text is read only if all its code points are readable, which are characters then; the first that
is not is a failure before any event.

* `isReadable`   the code points a text may have
* `textEvents`   the events of a text
-/

namespace YamlSpan

/-- A code point that a text may have. -/
def isReadable (c : CodePoint) : Bool :=
  let n := c.toNat
  n == 0x09 || n == 0x0a || n == 0x0d || (0x20 ≤ n && n ≤ 0x7e) || n == 0x85
    || (0xa0 ≤ n && n ≤ 0xd7ff) || (0xe000 ≤ n && n ≤ 0xfffd) || 0x10000 ≤ n

/-- A code point in hexadecimal, with at least four digits. -/
def codeText (n : Nat) : String :=
  String.ofList (if n < 0x10000 then Text.hexDigits 4 n else Nat.toDigits 16 n)

def unreadable (c : CodePoint) (index : Nat) : Failure :=
  .unmarked ("unacceptable character #x" ++ codeText c.toNat
      ++ ": special characters are not allowed\n  in \"" ++ Problem.sourceName ++ "\", position "
      ++ toString index) (some index)

def firstUnreadable? (text : Text) : Option (CodePoint × Nat) :=
  match text.dropWhile isReadable with
  | [] => none
  | c :: rest => some (c, text.length - (rest.length + 1))

def textEvents : EventSource := fun text =>
  match firstUnreadable? text with
  | some (c, index) => ⟨[], some (.failure (unreadable c index))⟩
  | none => readEvents (lex text.chars)

end YamlSpan
