import YamlSpan.Document
import YamlSpan.Event.Text
import YamlSpan.Raw.Loading
import YamlSpan.Node.Value

/-!
# Parsing a text

* `parseWith`   the documents of a text for a tag registry
* `parse`       the same for the specifications of custom tags
-/

namespace YamlSpan

inductive ParseError where
  | tag (e : TagError)
  | fault (f : Fault)
  deriving DecidableEq, Repr

def ParseError.message : ParseError → Text
  | .tag e => e.message
  | .fault f => f.message

def loadText (tags : TagRegistry) (text : Text) : Except ParseError (List RawDocument) :=
  (load textEvents tags text).mapError .fault

def readTags (specs : List Text) : Except ParseError TagRegistry :=
  (TagRegistry.ofSpecs specs).mapError .tag

def parseWith (tags : TagRegistry) (text : Text) : Except ParseError (List Document) := do
  let raws ← loadText tags text
  let starts := lineStarts text
  return raws.map (Document.ofRaw text starts)

/-- The documents of a text, with custom tags given by their specifications. -/
def parse (text : Text) (customTags : List Text) : Except ParseError (List Document) := do
  parseWith (← readTags customTags) text

end YamlSpan
