import YamlSpan.Diagnostic
import YamlSpan.Node.OfRaw
import YamlSpan.Node.Path
import YamlSpan.Position

/-!
# Documents

* `Document.ofRaw`       a document from its raw form
* `Document.nodeAt?`     the innermost node around an offset
* `Document.position?`   the line and character of an offset
* `documentAt?`          one document of several, also counted from the end
-/

namespace YamlSpan

/-- Texts for messages by key. -/
abbrev Catalog := List (String × String)

/-- The text of a message, with a default for the keys the catalog does not have. -/
def Catalog.text (catalog : Catalog) (key fallback : String) : String :=
  (catalog.lookup key).getD fallback

/-- No texts are installed, so every message has its default text. -/
def Catalog.installed : Catalog := []

def noContent : String :=
  Catalog.installed.text "Invalid symbol" "Expected a YAML object, array or literal"

structure Document where
  root : Option Node
  errors : List Diagnostic
  warnings : List Diagnostic
  lineStarts : List Int
  deriving Repr

namespace Document

/-- A document from its raw form.  A document without a tree is an error of its own, reported
before all others. -/
def ofRaw (text : Text) (lineStarts : List Int) (raw : RawDocument) : Document :=
  let found := Diagnostics.ofRaw text raw.diagnostics
  let missing := if raw.root.isNone then [⟨noContent, raw.span, .undefined⟩] else []
  { root := raw.root.map (·.toNode text)
    errors := missing ++ found.errors
    warnings := found.warnings
    lineStarts := lineStarts }

def pathTo (d : Document) (offset : Int) (rightBound : Bool) : List Node :=
  match d.root with
  | some root => root.pathTo offset rightBound
  | none => []

def nodeAt? (d : Document) (offset : Int) (rightBound : Bool) : Option Node :=
  d.root.bind fun root => root.find? offset rightBound

/-- The ancestors of the innermost node around an offset, nearest first. -/
def parentsAt (d : Document) (offset : Int) (rightBound : Bool) : List Node :=
  match d.root with
  | some root => root.parents offset rightBound
  | none => []

def position? (d : Document) (offset : Int) : Option Position :=
  Position.ofOffset? d.lineStarts offset

end Document

/-- The document with a number; negative numbers count from the last one. -/
def documentAt? (documents : List Document) (number : Int) : Option Document :=
  let number := if number < 0 then number + documents.length else number
  if number < 0 then none else documents[number.toNat]?

end YamlSpan
