import YamlSpan.Node.Value

/-!
# Reading trees back from plain data

The plain data of a tree hold all of it: a reader that looks at nothing else, and at members by
their names only, gives the tree back.  So data of two trees are equal only if the trees are, and of
properties with equal keys each is written, in its place.

* `Node.ofJson?`          the tree that data describe, none if they describe no tree
* `Node.ofJson?_toJson`   what is written is read back
* `toJson_lossless`       nothing is lost

The reader tells the types of nodes apart by the member `type` and then asks for the members of
that type.  A key has to be a string node, and what an object holds have to be properties.
-/

namespace YamlSpan

/-! ### what members hold -/

namespace Json

theorem sizeOf_member?_lt {members : List (Text × Json)} {name : String} {json : Json}
    (h : member? members name = some json) : sizeOf json < sizeOf (Json.object members) := by
  obtain ⟨before, after, hsplit, -⟩ := List.lookup_eq_some_iff.mp h
  have hmem : (Text.ofString name, json) ∈ members := by
    rw [hsplit]
    exact List.mem_append_right before List.mem_cons_self
  have hsize := List.sizeOf_lt_of_mem hmem
  simp only [Prod.mk.sizeOf_spec, object.sizeOf_spec] at hsize ⊢
  omega

def int? : Json → Option Int
  | .number (.int n) => some n
  | _ => none

def number? : Json → Option Number
  | .number n => some n
  | _ => none

def bool? : Json → Option Bool
  | .bool b => some b
  | _ => none

def text? : Json → Option Text
  | .string s => some s
  | _ => none

def items? : Json → Option (List Json)
  | .array items => some items
  | _ => none

/-- The place that members tell. -/
def extent? (members : List (Text × Json)) : Option Extent := do
  return ⟨← (← member? members "offset").int?, ← (← member? members "length").int?⟩

end Json

def NodeType.ofName? (name : Text) : Option NodeType :=
  [object, property, array, string, number, boolean, null].find? fun type =>
    Text.ofString type.name = name

/-! ### the reader -/

def Node.property? : Node → Option Property
  | .property p => some p
  | _ => none

def Node.key? : Node → Option Key
  | .string extent text => some ⟨extent, text⟩
  | _ => none

/-- The node that members describe.  The nodes below it are had by the names of the members that
describe them: one alone, or those of an array. -/
def Node.ofMembers? (members : List (Text × Json)) (node? : String → Option Node)
    (nodes? : String → Option (List Node)) : Option Node := do
  let extent ← Json.extent? members
  match ← NodeType.ofName? (← (← Json.member? members "type").text?) with
  | .object => return .object extent (← (← nodes? "properties").mapM property?)
  | .property => return .property (.mk extent (← (← node? "key").key?) (← node? "value"))
  | .array => return .array extent (← nodes? "items")
  | .string => return .string extent (← (← Json.member? members "value").text?)
  | .number =>
    let number ← (← Json.member? members "value").number?
    let isInteger ← (← Json.member? members "is_integer").bool?
    return .number extent ⟨number, isInteger⟩
  | .boolean => return .boolean extent (← (← Json.member? members "value").bool?)
  | .null => return .null extent

/-- The tree that data describe. -/
def Node.ofJson? : Json → Option Node
  | .object members =>
    ofMembers? members
      (fun name =>
        match _found : Json.member? members name with
        | some json => ofJson? json
        | none => none)
      (fun name =>
        match _found : Json.member? members name with
        | some (.array items) => items.attach.mapM fun item => ofJson? item.1
        | _ => none)
  | _ => none
termination_by json => sizeOf json
decreasing_by
  · exact Json.sizeOf_member?_lt _found
  · have hitem := List.sizeOf_lt_of_mem item.2
    have hitems := Json.sizeOf_member?_lt _found
    simp only [Json.array.sizeOf_spec] at hitems
    omega

/-- The nodes below are read by the same reader, from the members of a name. -/
theorem Node.ofJson?_object (members : List (Text × Json)) :
    ofJson? (.object members)
      = ofMembers? members (fun name => (Json.member? members name).bind ofJson?)
          (fun name => ((Json.member? members name).bind Json.items?).bind
            fun items => items.mapM ofJson?) := by
  rw [ofJson?]
  congr 1
  · funext name
    cases Json.member? members name <;> rfl
  · funext name
    cases Json.member? members name with
    | none => rfl
    | some json =>
      cases json with
      | array items => simp [Json.items?]
      | null | bool | number | string | object => rfl

/-! ### what is written -/

theorem itemsToJson_eq (items : List Node) : itemsToJson items = items.map Node.toJson := by
  induction items with
  | nil => rfl
  | cons item rest ih => rw [itemsToJson, ih, List.map_cons]

theorem propertiesToJson_eq (properties : List Property) :
    propertiesToJson properties = properties.map Property.toJson := by
  induction properties with
  | nil => rfl
  | cons p rest ih => rw [propertiesToJson, ih, List.map_cons]

/-- What is written of each item is read back, so all items are. -/
theorem mapM_map_eq_some {α β : Type} {write : α → β} {read : β → Option α} {items : List α}
    (h : ∀ item ∈ items, read (write item) = some item) :
    (items.map write).mapM read = some items := by
  induction items with
  | nil => rfl
  | cons item rest ih =>
    obtain ⟨hitem, hrest⟩ := List.forall_mem_cons.mp h
    rw [List.map_cons, List.mapM_cons, hitem, ih hrest]
    rfl

/-- What an object holds are nodes like all others. -/
theorem map_toJson_property (properties : List Property) :
    properties.map Property.toJson = (properties.map Node.property).map Node.toJson := by
  rw [List.map_map]
  rfl

/-- A tree is read back from its data. -/
theorem Node.ofJson?_toJson (node : Node) : ofJson? node.toJson = some node := by
  induction node using Node.children_induction with
  | step node ih =>
    cases node with
    | object extent properties =>
      have hnodes : (properties.map Property.toJson).mapM ofJson?
          = some (properties.map Node.property) := by
        rw [map_toJson_property]
        exact mapM_map_eq_some ih
      have hproperties : (properties.map Node.property).mapM property? = some properties :=
        mapM_map_eq_some fun _ _ => rfl
      rw [toJson, propertiesToJson_eq, Extent.toJson, ofJson?_object]
      -- The members of an object are found by evaluation, and the nodes below are left to be read.
      show ((properties.map Property.toJson).mapM ofJson?).bind
        (fun nodes => (nodes.mapM property?).bind (some <| Node.object extent ·)) = _
      rw [hnodes, Option.bind_some, hproperties, Option.bind_some]
    | property p =>
      obtain ⟨extent, key, value⟩ := p
      have hkey : ofJson? key.toJson = some key.node := ih key.node List.mem_cons_self
      have hvalue : ofJson? value.toJson = some value :=
        ih value (List.mem_cons_of_mem _ List.mem_cons_self)
      rw [toJson, Property.toJson, Extent.toJson, ofJson?_object]
      show (ofJson? key.toJson).bind (fun node => node.key?.bind fun key =>
        (ofJson? value.toJson).bind (some <| Node.property <| .mk extent key ·)) = _
      rw [hkey, hvalue]
      rfl
    | array extent items =>
      have hitems : (items.map toJson).mapM ofJson? = some items := mapM_map_eq_some ih
      rw [toJson, itemsToJson_eq, Extent.toJson, ofJson?_object]
      show ((items.map toJson).mapM ofJson?).bind (some <| Node.array extent ·) = _
      rw [hitems, Option.bind_some]
    | string | number | boolean | null =>
      rw [toJson, Extent.toJson, ofJson?_object]
      rfl

/-- **Nothing is lost.**  A tree is read back from its data alone, with all types, places, values,
marks and orders, so that only equal trees have equal data.  The data of an object list those of its
properties, each in its place, whatever the keys are. -/
theorem toJson_lossless (node : Node) :
    Node.ofJson? node.toJson = some node
    ∧ (∀ other : Node, other.toJson = node.toJson ↔ other = node)
    ∧ ∀ (extent : Extent) (properties : List Property), ∃ members : List (Text × Json),
      (Node.object extent properties).toJson = .object members
      ∧ Json.member? members "properties" = some (.array (properties.map Property.toJson)) := by
  have hinj : ∀ other : Node, other.toJson = node.toJson → other = node := by
    intro other h
    have hread : some other = some node := by
      rw [← other.ofJson?_toJson, h, node.ofJson?_toJson]
    exact Option.some.inj hread
  refine ⟨node.ofJson?_toJson, fun other => ⟨hinj other, congrArg Node.toJson⟩, ?_⟩
  intro extent properties
  exact ⟨_, rfl, congrArg (some <| Json.array ·) (propertiesToJson_eq properties)⟩

end YamlSpan
