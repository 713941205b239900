import YamlSpan.Token

/-!
# The names of anchors

* `readName`   the name behind `&` or `*`
-/

namespace YamlSpan

/-- A character that may stand in the name of an anchor. -/
def isNameChar (c : Char) : Bool :=
  let n := c.toNat
  ((0x21 ≤ n && n ≤ 0x7e) || (0xa0 ≤ n && n ≤ 0xfffd && n != 0xfeff) || 0x10000 ≤ n)
    && !",[]\x7b\x7d".toList.contains c

def endsName (c : Char) : Bool :=
  isStopOrBlank c || "?:,[]\x7b\x7d%@\x60".toList.contains c

/-- Reads a name, starting at its indicator. -/
def readName (c : Cursor) : Except Halt (String × Cursor) :=
  let c := c.advance
  let name := c.run isNameChar
  if name.isEmpty then c.refuse .noWord
  else
    let c := c.forward name.length
    if endsName (c.peek 0) then .ok (String.ofList name, c) else c.refuse .noWord

end YamlSpan
