/-!
# Code points and texts

A text is a list of code points.  All are characters but the surrogates, `U+D800` to `U+DFFF`.
Surrogates cannot be written, but escapes can name them: then they are code points like others,
also where two of them could have been joined to one character.

* `CodePoint`               a character or a surrogate
* `CodePoint.ofNat`         the code point with a number
* `CodePoint.joined?`       the character that a pair of surrogates stands for
* `Text`                    a list of code points
* `Text.ofString`           the text of a string
* `Text.toString?`          the string of a text without surrogates
* `Text.joinPairs`          a text with its pairs of surrogates joined
-/

namespace YamlSpan

/-- A character, or the surrogate with the number `0xd800 + index`. -/
inductive CodePoint where
  | char (c : Char)
  | surrogate (index : Fin 0x800)
  deriving DecidableEq, Repr

namespace CodePoint

def toNat : CodePoint → Nat
  | .char c => c.toNat
  | .surrogate index => 0xd800 + index.val

/-- The code point with a number below `0x110000`. -/
def ofNat (n : Nat) : CodePoint :=
  if h : 0xd800 ≤ n ∧ n < 0xe000 then .surrogate ⟨n - 0xd800, by omega⟩ else .char (Char.ofNat n)

/-- The character that a code point is. -/
def char? : CodePoint → Option Char
  | .char c => some c
  | .surrogate _ => none

/-- Is it a character, and one of a class? -/
def isOf (p : Char → Bool) : CodePoint → Bool
  | .char c => p c
  | .surrogate _ => false

/-- Is it a surrogate that comes first in a pair?  Those are the ones up to `U+DBFF`. -/
def isHigh : CodePoint → Bool
  | .char _ => false
  | .surrogate index => index.val < 0x400

/-- The character that two surrogates stand for, of which only the first may be one that comes
first in a pair. -/
def joined? : CodePoint → CodePoint → Option CodePoint
  | .surrogate high, .surrogate low =>
    if high.val < 0x400 ∧ 0x400 ≤ low.val then
      some (.char (Char.ofNat (0x10000 + high.val * 0x400 + (low.val - 0x400))))
    else none
  | _, _ => none

end CodePoint

/-- A list of code points. -/
abbrev Text := List CodePoint

namespace Text

def ofChars (chars : List Char) : Text := chars.map .char

def ofString (s : String) : Text := ofChars s.toList

instance : Coe String Text := ⟨ofString⟩

instance : LawfulBEq Text := inferInstanceAs (LawfulBEq (List CodePoint))

/-- The characters of a text; surrogates are left out. -/
def chars (text : Text) : List Char := text.filterMap CodePoint.char?

/-- Does a text hold characters only? -/
def isWellFormed (text : Text) : Bool := text.all (CodePoint.isOf fun _ => true)

def chars? (text : Text) : Option (List Char) := if text.isWellFormed then some text.chars else none

def toString? (text : Text) : Option String := text.chars?.map String.ofList

def mapChars (f : Char → Char) (text : Text) : Text :=
  text.map fun
    | .char c => .char (f c)
    | .surrogate index => .surrogate index

/-- A text with its pairs of surrogates joined. -/
def joinPairs : Text → Text
  | first :: second :: rest =>
    match first.joined? second with
    | some c => c :: joinPairs rest
    | none => first :: joinPairs (second :: rest)
  | rest => rest

/-- A text as it is printed, with a replacement for each surrogate. -/
def shown (text : Text) : String :=
  String.ofList (text.map fun c => c.char?.getD '\uFFFD')

theorem chars_ofChars (chars : List Char) : (ofChars chars).chars = chars := by
  induction chars with
  | nil => rfl
  | cons c rest ih => simpa [ofChars, Text.chars, CodePoint.char?] using ih

theorem isWellFormed_ofChars (chars : List Char) : (ofChars chars).isWellFormed = true := by
  simp [ofChars, isWellFormed, CodePoint.isOf]

theorem toString?_ofString (s : String) : (ofString s).toString? = some s := by
  simp [toString?, chars?, ofString, isWellFormed_ofChars, chars_ofChars]

end Text

end YamlSpan
