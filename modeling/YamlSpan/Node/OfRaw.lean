import YamlSpan.Node
import YamlSpan.Raw

/-!
# From raw trees to trees

Scalars are given their meaning, references are replaced by what they stand for, keys become
strings, and what was left out becomes null: inside a sequence with the span of the sequence,
as a value with the span of the entry.  What was left out at the end of a sequence is dropped.

* `RawNode.toNode`   the tree of a raw node
-/

namespace YamlSpan

/-- The key of an entry. -/
def RawEntry.toKey (text : Text) (e : RawEntry) : Key :=
  match e.key with
  | some key => ⟨key.span.extent, key.keyText text⟩
  | none => ⟨⟨e.span.start, 0⟩, []⟩

/-- The extent of the property of an entry: from its key to its end. -/
def RawEntry.propertyExtent (e : RawEntry) : Extent :=
  match e.key with
  | some key => ⟨key.span.start, e.span.stop - key.span.start⟩
  | none => e.span.extent

mutual

def RawNode.toNode (text : Text) : RawNode → Node
  | .scalar span value plain tag => .ofScalar span.extent (Scalar.classify value plain tag)
  | .inclusion span value => .string span.extent value
  | .reference _ _ (some target) => target.toNode text
  | .reference span _ none => .null span.extent
  | .sequence span items => .array span.extent (itemsToNodes text span.extent items)
  | .map span entries => .object span.extent (entriesToProperties text entries)
  | .entry e => .property (e.toProperty text)

def RawEntry.toProperty (text : Text) : RawEntry → Property
  | .mk span key (some value) =>
    .mk (RawEntry.mk span key (some value)).propertyExtent
      ((RawEntry.mk span key (some value)).toKey text) (value.toNode text)
  | .mk span key none =>
    .mk (RawEntry.mk span key none).propertyExtent ((RawEntry.mk span key none).toKey text)
      (.null span.extent)

def itemsToNodes (text : Text) (extent : Extent) : List (Option RawNode) → List Node
  | [] => []
  | some item :: rest => item.toNode text :: itemsToNodes text extent rest
  | none :: rest =>
    if rest.isEmpty then [] else .null extent :: itemsToNodes text extent rest

def entriesToProperties (text : Text) : List RawEntry → List Property
  | [] => []
  | e :: rest => e.toProperty text :: entriesToProperties text rest

end

theorem RawEntry.toProperty_key (text : Text) (e : RawEntry) :
    (e.toProperty text).key.text = keyText text e.key := by
  obtain ⟨span, key, value⟩ := e
  cases value <;> cases key <;> rfl

end YamlSpan
