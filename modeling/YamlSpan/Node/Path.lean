import YamlSpan.Node

/-!
# Navigation

* `Node.pathTo`     from the root to the innermost node around an offset, empty if it is outside
* `Node.find?`      the innermost node around an offset
* `Node.parents`    its ancestors, nearest first
* `Node.visits`     all nodes with their parents, in the order of a traversal
-/

namespace YamlSpan

/-- The later of two paths, unless it is empty. -/
def laterPath (earlier later : List Node) : List Node := if later.isEmpty then earlier else later

mutual

/-- The way from a node down to the innermost one around an offset.  The search goes down through
the last child that covers the offset. -/
def Node.pathTo (offset : Int) (rightBound : Bool) : Node → List Node
  | .object extent properties =>
    if extent.covers offset rightBound then
      .object extent properties :: propertiesPathTo offset rightBound properties
    else []
  | .property p => p.pathTo offset rightBound
  | .array extent items =>
    if extent.covers offset rightBound then
      .array extent items :: itemsPathTo offset rightBound items
    else []
  | .string extent text => if extent.covers offset rightBound then [.string extent text] else []
  | .number extent value => if extent.covers offset rightBound then [.number extent value] else []
  | .boolean extent value =>
    if extent.covers offset rightBound then [.boolean extent value] else []
  | .null extent => if extent.covers offset rightBound then [.null extent] else []

def Property.pathTo (offset : Int) (rightBound : Bool) : Property → List Node
  | .mk extent key value =>
    if extent.covers offset rightBound then
      .property (.mk extent key value) ::
        laterPath (if key.extent.covers offset rightBound then [key.node] else [])
          (value.pathTo offset rightBound)
    else []

def itemsPathTo (offset : Int) (rightBound : Bool) : List Node → List Node
  | [] => []
  | item :: rest =>
    laterPath (item.pathTo offset rightBound) (itemsPathTo offset rightBound rest)

def propertiesPathTo (offset : Int) (rightBound : Bool) : List Property → List Node
  | [] => []
  | p :: rest => laterPath (p.pathTo offset rightBound) (propertiesPathTo offset rightBound rest)

end

def Node.find? (root : Node) (offset : Int) (rightBound : Bool) : Option Node :=
  (root.pathTo offset rightBound).getLast?

/-- The ancestors of the innermost node around an offset, nearest first. -/
def Node.parents (root : Node) (offset : Int) (rightBound : Bool) : List Node :=
  (root.pathTo offset rightBound).dropLast.reverse

/-! ### the last child that covers the offset -/

section Path

variable (offset : Int) (rightBound : Bool)

theorem propertiesPathTo_eq (properties : List Property) :
    propertiesPathTo offset rightBound properties
      = itemsPathTo offset rightBound (properties.map .property) := by
  induction properties with
  | nil => rfl
  | cons p rest ih => rw [propertiesPathTo, ih, List.map_cons, itemsPathTo, Node.pathTo]

/-- The way from a node goes on through the last child that covers the offset. -/
theorem Node.pathTo_eq (node : Node) :
    node.pathTo offset rightBound
      = if node.extent.covers offset rightBound then
          node :: itemsPathTo offset rightBound node.children
        else [] := by
  cases node with
  | object extent properties => rw [pathTo, propertiesPathTo_eq]; rfl
  | property p =>
    obtain ⟨extent, key, value⟩ := p
    rw [pathTo, Property.pathTo]
    simp [children, itemsPathTo, laterPath, Key.node, pathTo, Property.key, Property.value,
      Property.extent, Node.extent]
  | array | string | number | boolean | null => rw [pathTo]; rfl

theorem Node.pathTo_eq_nil_iff (node : Node) :
    node.pathTo offset rightBound = [] ↔ node.extent.covers offset rightBound = false := by
  rw [pathTo_eq]
  cases h : node.extent.covers offset rightBound <;> simp

theorem laterPath_nil (path : List Node) : laterPath path [] = path := rfl

theorem laterPath_of_ne_nil {path laterOnes : List Node} (h : laterOnes ≠ []) :
    laterPath path laterOnes = laterOnes := by
  rw [laterPath, if_neg (by simpa using h)]

/-- No item covers the offset, or the way goes through the last one that does. -/
theorem itemsPathTo_cases (items : List Node) :
    (itemsPathTo offset rightBound items = [] ∧
      ∀ d ∈ items, d.extent.covers offset rightBound = false) ∨
    ∃ front c back, items = front ++ c :: back ∧
      (∀ d ∈ back, d.extent.covers offset rightBound = false) ∧
      itemsPathTo offset rightBound items = c.pathTo offset rightBound ∧
      c.pathTo offset rightBound ≠ [] := by
  induction items with
  | nil => exact .inl ⟨rfl, by simp⟩
  | cons item rest ih =>
    obtain ⟨hnil, hrest⟩ | ⟨front, c, back, hsplit, hback, hpath, hne⟩ := ih
    · have hthis : itemsPathTo offset rightBound (item :: rest) = item.pathTo offset rightBound := by
        rw [itemsPathTo, hnil, laterPath_nil]
      by_cases hitem : item.pathTo offset rightBound = []
      · have hcovers := (item.pathTo_eq_nil_iff offset rightBound).mp hitem
        exact .inl ⟨hthis.trans hitem, List.forall_mem_cons.mpr ⟨hcovers, hrest⟩⟩
      · exact .inr ⟨[], item, rest, rfl, hrest, hthis, hitem⟩
    · refine .inr ⟨item :: front, c, back, by rw [hsplit]; rfl, hback, ?_, hne⟩
      rw [itemsPathTo, laterPath_of_ne_nil (hpath ▸ hne), hpath]

/-- What is found from a node is the node itself, when no child covers the offset, or what is found
from the last child that does. -/
theorem Node.find?_cases {node n : Node} (h : node.find? offset rightBound = some n) :
    (n = node ∧ ∀ d ∈ node.children, d.extent.covers offset rightBound = false) ∨
    ∃ front c back, node.children = front ++ c :: back ∧
      (∀ d ∈ back, d.extent.covers offset rightBound = false) ∧
      c.find? offset rightBound = some n := by
  rw [find?, pathTo_eq] at h
  split at h
  next =>
    obtain ⟨hnil, hnone⟩ | ⟨front, c, back, hsplit, hback, hpath, hne⟩ :=
      itemsPathTo_cases offset rightBound node.children
    · rw [hnil, List.getLast?_singleton] at h
      exact .inl ⟨(Option.some.inj h).symm, hnone⟩
    · refine .inr ⟨front, c, back, hsplit, hback, ?_⟩
      rw [hpath, List.getLast?_cons_of_ne_nil hne] at h
      exact h
  next => simp at h

end Path

/-- A node met in a traversal, with the node it hangs below. -/
structure Visit where
  node : Node
  parent : Option Node
  deriving Repr

mutual

/-- The nodes of a tree with their parents: a node before its children, a key before its value. -/
def Node.visitsBelow (parent : Option Node) : Node → List Visit
  | .object extent properties =>
    ⟨.object extent properties, parent⟩
      :: propertyVisits (.object extent properties) properties
  | .property p => p.visitsBelow parent
  | .array extent items =>
    ⟨.array extent items, parent⟩ :: itemVisits (.array extent items) items
  | .string extent text => [⟨.string extent text, parent⟩]
  | .number extent value => [⟨.number extent value, parent⟩]
  | .boolean extent value => [⟨.boolean extent value, parent⟩]
  | .null extent => [⟨.null extent, parent⟩]

def Property.visitsBelow (parent : Option Node) : Property → List Visit
  | .mk extent key value =>
    ⟨.property (.mk extent key value), parent⟩
      :: ⟨key.node, some (.property (.mk extent key value))⟩
      :: value.visitsBelow (some (.property (.mk extent key value)))

def itemVisits (array : Node) : List Node → List Visit
  | [] => []
  | item :: rest => item.visitsBelow (some array) ++ itemVisits array rest

def propertyVisits (object : Node) : List Property → List Visit
  | [] => []
  | p :: rest => p.visitsBelow (some object) ++ propertyVisits object rest

end

def Node.visits (root : Node) : List Visit := root.visitsBelow none

end YamlSpan
