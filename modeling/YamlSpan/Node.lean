import YamlSpan.Json
import YamlSpan.Span

/-!
# The tree of a document

A tree in the shape of JSON: objects of properties, arrays, strings, numbers, truth values and
null, each with its extent in the text.  A property is a node too.

* `Node.children`   the nodes directly below a node
* `Node.value`      the plain data of a tree
* `Node.toJson`     a tree with its extents, as plain data
* `Node.pathTo`     the way from the root to the innermost node around an offset
* `Node.visits`     all nodes, parents first
-/

namespace YamlSpan

/-- The key of a property: a string with its extent. -/
structure Key where
  extent : Extent
  text : Text
  deriving DecidableEq, Repr

/-- A number, and whether it is marked as an integer.  The mark of a node that is built follows from
the number, but it is kept and written apart. -/
structure MarkedNumber where
  number : Number
  isInteger : Bool
  deriving DecidableEq, Repr

namespace MarkedNumber

instance : Coe MarkedNumber Number := ⟨number⟩

def int (n : Int) : MarkedNumber := ⟨.int n, true⟩

def float (x : Binary64) : MarkedNumber := ⟨.float x, false⟩

/-- A number with the mark that fits it. -/
def ofNumber : Number → MarkedNumber
  | .int n => int n
  | .float x => float x

end MarkedNumber

mutual

inductive Node where
  | object (extent : Extent) (properties : List Property)
  | property (p : Property)
  | array (extent : Extent) (items : List Node)
  | string (extent : Extent) (text : Text)
  | number (extent : Extent) (value : MarkedNumber)
  | boolean (extent : Extent) (value : Bool)
  | null (extent : Extent)

inductive Property where
  | mk (extent : Extent) (key : Key) (value : Node)

end

deriving instance Repr for Node, Property

inductive NodeType where
  | object
  | property
  | array
  | string
  | number
  | boolean
  | null
  deriving DecidableEq, Repr

def NodeType.name : NodeType → String
  | .object => "object"
  | .property => "property"
  | .array => "array"
  | .string => "string"
  | .number => "number"
  | .boolean => "boolean"
  | .null => "null"

def Key.node (k : Key) : Node := .string k.extent k.text

namespace Property

def extent : Property → Extent
  | .mk extent _ _ => extent

def key : Property → Key
  | .mk _ key _ => key

def value : Property → Node
  | .mk _ _ value => value

end Property

namespace Node

def type : Node → NodeType
  | .object .. => .object
  | .property .. => .property
  | .array .. => .array
  | .string .. => .string
  | .number .. => .number
  | .boolean .. => .boolean
  | .null .. => .null

def extent : Node → Extent
  | .object extent _ => extent
  | .property p => p.extent
  | .array extent _ => extent
  | .string extent _ => extent
  | .number extent _ => extent
  | .boolean extent _ => extent
  | .null extent => extent

/-- The nodes directly below a node, in order. -/
def children : Node → List Node
  | .object _ properties => properties.map .property
  | .property p => [p.key.node, p.value]
  | .array _ items => items
  | _ => []

theorem sizeOf_lt_of_mem_children {node child : Node} (h : child ∈ node.children) :
    sizeOf child < sizeOf node := by
  cases node with
  | object extent properties =>
    obtain ⟨p, hp, rfl⟩ := List.mem_map.mp h
    have hsize := List.sizeOf_lt_of_mem hp
    simp only [Node.property.sizeOf_spec, Node.object.sizeOf_spec]
    omega
  | property p =>
    obtain ⟨extent, ⟨place, text⟩, value⟩ := p
    obtain rfl | rfl : child = .string place text ∨ child = value := by
      simpa [children, Property.key, Property.value, Key.node] using h
    · simp only [Node.property.sizeOf_spec, Property.mk.sizeOf_spec, Key.mk.sizeOf_spec,
        Node.string.sizeOf_spec]
      omega
    · simp only [Node.property.sizeOf_spec, Property.mk.sizeOf_spec]
      omega
  | array extent items =>
    have hsize := List.sizeOf_lt_of_mem (show child ∈ items from h)
    simp only [Node.array.sizeOf_spec]
    omega
  | string | number | boolean | null => simp [children] at h

/-- What holds of a node if it holds of its children holds of every node. -/
@[elab_as_elim]
theorem children_induction {P : Node → Prop}
    (step : ∀ node, (∀ child ∈ node.children, P child) → P node) (node : Node) : P node :=
  step node fun child _ => children_induction step child
termination_by sizeOf node
decreasing_by exact sizeOf_lt_of_mem_children ‹_›

def ofScalar (extent : Extent) : Scalar → Node
  | .null => .null extent
  | .bool b => .boolean extent b
  | .number n => .number extent (.ofNumber n)
  | .string s => .string extent s

end Node

end YamlSpan
