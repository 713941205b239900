import YamlSpan.Node

/-!
# Visitors

A visitor has methods for some types of nodes, by name, and a generic one for all others.  A node
that is visited is handed to its method together with the visits to the nodes it holds: those to
the properties of an object, to the key and the value of a property, to the items of an array.  A
method makes as many of these visits as it likes.

* `Visitor.visit`       a visit to a node
* `Visitor.base`        makes all visits to what a node holds and answers with the node
* `Visitor.entering`, `Visitor.override`   visitors that differ in one thing from another one
-/

namespace YamlSpan

def NodeType.methodName (type : NodeType) : String := "visit_" ++ type.name

/-- A visitor: what it does first in each visit, and its methods. -/
structure Visitor (m : Type → Type) (α : Type) where
  enter : Node → m PUnit
  method? : String → Option (Node → List (m α) → m α)
  generic : Node → m α

namespace Visitor

section
variable {m : Type → Type} [Monad m] {α : Type}

/-- Hands a node to the method for its type, with the visits to the nodes it holds. -/
def meet (v : Visitor m α) (node : Node) (held : List (m α)) : m α := do
  v.enter node
  match v.method? node.type.methodName with
  | some method => method node held
  | none => v.generic node

mutual

def visit (v : Visitor m α) : Node → m α
  | .object extent properties => v.meet (.object extent properties) (v.visitProperties properties)
  | .property p => v.visitProperty p
  | .array extent items => v.meet (.array extent items) (v.visitItems items)
  | .string extent text => v.meet (.string extent text) []
  | .number extent value => v.meet (.number extent value) []
  | .boolean extent value => v.meet (.boolean extent value) []
  | .null extent => v.meet (.null extent) []

def visitProperty (v : Visitor m α) : Property → m α
  | .mk extent key value =>
    v.meet (.property (.mk extent key value)) [v.meet key.node [], v.visit value]

def visitItems (v : Visitor m α) : List Node → List (m α)
  | [] => []
  | item :: rest => v.visit item :: v.visitItems rest

def visitProperties (v : Visitor m α) : List Property → List (m α)
  | [] => []
  | p :: rest => v.visitProperty p :: v.visitProperties rest

end

/-- Makes all visits to what a node holds, in order, and answers with the node. -/
def visitAll (given : Node → α) (node : Node) (held : List (m α)) : m α := do
  held.forM discard
  return given node

/-- The visitor that others are made from: it goes through the whole tree.  Nodes are answers by
`given`. -/
def base (given : Node → α) : Visitor m α where
  enter _ := return
  method? name :=
    if name ∈ ["visit_object", "visit_property", "visit_array"] then some (visitAll given) else none
  generic node := return given node

end

section
variable {m : Type → Type} {α : Type} (v : Visitor m α)

/-- A visitor with another thing to do first in each visit. -/
def entering (enter : Node → m PUnit) : Visitor m α := { v with enter }

def override (type : NodeType) (method : Node → List (m α) → m α) : Visitor m α :=
  { v with method? := fun name => if name = type.methodName then some method else v.method? name }

end

end Visitor

end YamlSpan
