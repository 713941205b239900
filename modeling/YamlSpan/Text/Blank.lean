import YamlSpan.Text.CodePoint

/-!
# White space

Words are separated by the white space of all scripts.  Number literals allow less around them:
the same set without the four information separators.

* `isBlank`    separates words
* `words`      the words of a text
* `isMargin`   may stand around a number literal
* `trim`       a text without its margins
-/

namespace YamlSpan.Text

/-- White space of any script. -/
def isBlank (c : Char) : Bool :=
  let n := c.toNat
  (0x09 ≤ n && n ≤ 0x0d) || (0x1c ≤ n && n ≤ 0x20) || n == 0x85 || n == 0xa0 || n == 0x1680
    || (0x2000 ≤ n && n ≤ 0x200a) || n == 0x2028 || n == 0x2029 || n == 0x202f || n == 0x205f
    || n == 0x3000

/-- White space that may stand around a number literal. -/
def isMargin (c : Char) : Bool := isBlank c && !(0x1c ≤ c.toNat && c.toNat ≤ 0x1f)

/-- Words, `word` being the part already read of the one under way, last code point first. -/
def wordsAfter : (word : Text) → Text → List Text
  | word, [] => if word.isEmpty then [] else [word.reverse]
  | word, c :: rest =>
    if c.isOf isBlank then
      if word.isEmpty then wordsAfter [] rest else word.reverse :: wordsAfter [] rest
    else wordsAfter (c :: word) rest

/-- The maximal runs of code points that are not white space. -/
def words (text : Text) : List Text := wordsAfter [] text

def trimWhile (p : Char → Bool) (text : List Char) : List Char :=
  ((text.dropWhile p).reverse.dropWhile p).reverse

def trim (text : List Char) : List Char := trimWhile isMargin text

/-- Lower case of the letters of the ASCII alphabet. -/
def lower (s : String) : String := String.ofList (s.toList.map Char.toLower)

end YamlSpan.Text
