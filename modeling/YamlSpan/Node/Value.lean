import YamlSpan.Assoc
import YamlSpan.Node

/-!
# The data of a tree

* `Node.value`    the plain data a tree stands for; of properties with equal keys the last counts
* `Node.toJson`   the whole tree with its extents, every property kept
-/

namespace YamlSpan

mutual

/-- The plain data of a tree. -/
def Node.value : Node → Json
  | .object _ properties => .object (Assoc.ofList (propertyValues properties))
  | .property p => p.plainValue
  | .array _ items => .array (itemValues items)
  | .string _ text => .string text
  | .number _ value => .number value
  | .boolean _ value => .bool value
  | .null _ => .null

def Property.plainValue : Property → Json
  | .mk _ _ value => value.value

def itemValues : List Node → List Json
  | [] => []
  | item :: rest => item.value :: itemValues rest

def propertyValues : List Property → List (Text × Json)
  | [] => []
  | p :: rest => (p.key.text, p.plainValue) :: propertyValues rest

end

/-- A node of a type at an extent, with the members that only some nodes have. -/
def Extent.toJson (type : NodeType) (e : Extent) (more : List (Text × Json)) : Json :=
  .object (("type", .string type.name) :: ("offset", .int e.offset) :: ("length", .int e.length)
    :: more)

def Key.toJson (k : Key) : Json :=
  k.extent.toJson .string [("value", .string k.text)]

mutual

/-- A tree with its extents, as plain data. -/
def Node.toJson : Node → Json
  | .object extent properties =>
    extent.toJson .object [("properties", .array (propertiesToJson properties))]
  | .property p => p.toJson
  | .array extent items => extent.toJson .array [("items", .array (itemsToJson items))]
  | .string extent text => extent.toJson .string [("value", .string text)]
  | .number extent value =>
    extent.toJson .number [("value", .number value), ("is_integer", .bool value.isInteger)]
  | .boolean extent value => extent.toJson .boolean [("value", .bool value)]
  | .null extent => extent.toJson .null []

def Property.toJson : Property → Json
  | .mk extent key value =>
    extent.toJson .property [("key", key.toJson), ("value", value.toJson)]

def itemsToJson : List Node → List Json
  | [] => []
  | item :: rest => item.toJson :: itemsToJson rest

def propertiesToJson : List Property → List Json
  | [] => []
  | p :: rest => p.toJson :: propertiesToJson rest

end

end YamlSpan
