import YamlSpan.Span
import YamlSpan.Text.CodePoint
import YamlSpan.Text.Slice

/-!
# Raw trees

The structure of a document before its scalars are given a meaning: nodes with the spans they
were read from.  A place where a node was left out holds none.  A reference carries the node it
stands for, which is complete when the reference is met, so trees are finite.

* `RawNode`, `RawEntry`   the trees
* `RawNode.keyText`       the text that a node is known by as a key
* `RawDocument`           a tree with what was reported about it
-/

namespace YamlSpan

mutual

/-- A node of a raw tree. -/
inductive RawNode where
  | scalar (span : Span) (value : Text) (plain : Bool) (tag : Option String)
  | inclusion (span : Span) (value : Text)
  | reference (span : Span) (name : String) (target : Option RawNode)
  | sequence (span : Span) (items : List (Option RawNode))
  | map (span : Span) (entries : List RawEntry)
  | entry (e : RawEntry)

/-- A key and a value, each of which may be left out. -/
inductive RawEntry where
  | mk (span : Span) (key value : Option RawNode)

end

deriving instance Repr for RawNode, RawEntry

namespace RawEntry

def span : RawEntry → Span
  | .mk span _ _ => span

def key : RawEntry → Option RawNode
  | .mk _ key _ => key

def value : RawEntry → Option RawNode
  | .mk _ _ value => value

end RawEntry

namespace RawNode

def span : RawNode → Span
  | .scalar span .. => span
  | .inclusion span .. => span
  | .reference span .. => span
  | .sequence span .. => span
  | .map span .. => span
  | .entry e => e.span

/-- The text a node is known by as a key: the value of a scalar or an inclusion, the key text of
what a reference stands for, and the source text of any other node. -/
def keyText (text : Text) : RawNode → Text
  | .scalar _ value _ _ => value
  | .inclusion _ value => value
  | .reference _ _ (some target) => target.keyText text
  | .reference span _ none => Text.slice text span.start span.stop
  | .sequence span _ => Text.slice text span.start span.stop
  | .map span _ => Text.slice text span.start span.stop
  | .entry (.mk span _ _) => Text.slice text span.start span.stop

end RawNode

def keyText (text : Text) : Option RawNode → Text
  | none => []
  | some node => node.keyText text

structure RawDiagnostic where
  reason : String
  span : Span
  isWarning : Bool
  deriving DecidableEq, Repr

structure RawDocument where
  span : Span
  root : Option RawNode
  diagnostics : List RawDiagnostic
  deriving Repr

end YamlSpan
