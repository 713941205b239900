import YamlSpan.Text.CodePoint

/-!
# Lines and positions

A line ends at a line feed, at a carriage return, or at the two together.  The table of line
starts turns an offset into a zero-based line and character by binary search.

* `lineStarts`      the offset at which each line starts
* `upperBound`      how many entries of a table come before an offset, by binary search
* `Position.ofOffset?`   the position of an offset
-/

namespace YamlSpan

/-- Is the code point a line feed or a carriage return? -/
def isLineEnd (c : CodePoint) : Bool := c == .char '\n' || c == .char '\r'

/-- The line starts after the breaks of a text whose first code point has the given offset. -/
def breaksFrom : (offset : Nat) → Text → List Int
  | _, [] => []
  | offset, .char '\r' :: .char '\n' :: rest => (offset + 2 : Nat) :: breaksFrom (offset + 2) rest
  | offset, c :: rest =>
    if isLineEnd c then (offset + 1 : Nat) :: breaksFrom (offset + 1) rest
    else breaksFrom (offset + 1) rest

def lineStarts (text : Text) : List Int := 0 :: breaksFrom 0 text

/-- Binary search between `low` and `high` in at most `fuel` halvings. -/
def upperBoundIn (table : Array Int) (offset : Int) : (fuel low high : Nat) → Nat
  | 0, low, _ => low
  | fuel + 1, low, high =>
    if low < high then
      let mid := (low + high) / 2
      if offset < table.getD mid 0 then upperBoundIn table offset fuel low mid
      else upperBoundIn table offset fuel (mid + 1) high
    else low

/-- The number of entries at or below an offset, in a table in increasing order. -/
def upperBound (table : List Int) (offset : Int) : Nat :=
  upperBoundIn table.toArray offset table.length 0 table.length

/-- A zero-based line and character. -/
structure Position where
  line : Int
  character : Int
  deriving DecidableEq, Repr

/-- The position of an offset; a negative offset counts as zero.  Before the first line start the
line is `-1` and characters count from the last start.  An empty table has no positions. -/
def Position.ofOffset? (starts : List Int) (offset : Int) : Option Position :=
  let offset := max offset 0
  match upperBound starts offset with
  | 0 => starts.getLast?.map fun start => ⟨-1, offset - start⟩
  | line + 1 => starts[line]?.map fun start => ⟨line, offset - start⟩

end YamlSpan
