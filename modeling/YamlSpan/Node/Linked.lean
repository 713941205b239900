import YamlSpan.Node.OfRaw

/-!
# Trees with links to the parents

A node that is built knows the node it hangs below, so a tree with its links is a graph.  Here
nodes are cells that are made one after the other, and a link is the number of a cell.  A cell is
made with the link to its parent; its children are made after it and handed to it one by one.

* `Cell`           a node with its links
* `RawNode.link`   makes the cells of a raw node below a parent
* `Arena`          cells whose links agree
* `Arena.find?`    the search for an offset
* `Arena.preorder`, `Arena.ancestors`   down and up along the links

A reference makes the cells of what it stands for again, each time below its own parent.
-/

namespace YamlSpan

/-- What a node is, apart from its place and its children. -/
inductive Label where
  | object
  | property
  | array
  | string (text : Text)
  | number (value : MarkedNumber)
  | boolean (value : Bool)
  | null
  deriving DecidableEq, Repr

def Label.ofScalar : Scalar → Label
  | .null => .null
  | .bool b => .boolean b
  | .number n => .number (.ofNumber n)
  | .string s => .string s

def Node.label : Node → Label
  | .object .. => .object
  | .property .. => .property
  | .array .. => .array
  | .string _ text => .string text
  | .number _ value => .number value
  | .boolean _ value => .boolean value
  | .null _ => .null

/-- A node with its links. -/
structure Cell where
  parent : Option Nat
  extent : Extent
  label : Label
  children : List Nat
  deriving DecidableEq, Repr

/-! ### making cells -/

/-- A new cell without children.  It has the next number. -/
def newCell (parent : Option Nat) (extent : Extent) (label : Label) : StateM (List Cell) Nat :=
  fun cells => (cells.length, cells ++ [⟨parent, extent, label, []⟩])

/-- Hands a cell to another one as its last child. -/
def addChild (parent child : Nat) : StateM (List Cell) Unit :=
  modify (·.modify parent fun cell => { cell with children := cell.children ++ [child] })

mutual

/-- Makes the cells of a raw node and answers with the first one. -/
def RawNode.link (text : Text) (parent : Option Nat) : RawNode → StateM (List Cell) Nat
  | .scalar span value plain tag =>
    newCell parent span.extent (.ofScalar (Scalar.classify value plain tag))
  | .inclusion span value => newCell parent span.extent (.string value)
  | .reference _ _ (some target) => target.link text parent
  | .reference span _ none => newCell parent span.extent .null
  | .sequence span items => do
    let array ← newCell parent span.extent .array
    linkItems text array span.extent items
    return array
  | .map span entries => do
    let object ← newCell parent span.extent .object
    linkEntries text object entries
    return object
  | .entry e => e.link text parent

/-- The cells of an entry.  The property is there before its key and its value. -/
def RawEntry.link (text : Text) (parent : Option Nat) : RawEntry → StateM (List Cell) Nat
  | .mk span key (some value) => do
    let property ← newCell parent (RawEntry.mk span key (some value)).propertyExtent .property
    let name := (RawEntry.mk span key (some value)).toKey text
    addChild property (← newCell property name.extent (.string name.text))
    addChild property (← value.link text (some property))
    return property
  | .mk span key none => do
    let property ← newCell parent (RawEntry.mk span key none).propertyExtent .property
    let name := (RawEntry.mk span key none).toKey text
    addChild property (← newCell property name.extent (.string name.text))
    addChild property (← newCell property span.extent .null)
    return property

def linkItems (text : Text) (array : Nat) (extent : Extent) :
    List (Option RawNode) → StateM (List Cell) Unit
  | [] => return
  | some item :: rest => do
    addChild array (← item.link text (some array))
    linkItems text array extent rest
  | none :: rest =>
    if rest.isEmpty then return else do
      addChild array (← newCell array extent .null)
      linkItems text array extent rest

def linkEntries (text : Text) (object : Nat) : List RawEntry → StateM (List Cell) Unit
  | [] => return
  | e :: rest => do
    addChild object (← e.link text (some object))
    linkEntries text object rest

end

/-! ### cells whose links agree -/

def childrenAt (cells : List Cell) (n : Nat) : List Nat :=
  (cells[n]?.map (·.children)).getD []

def parentAt (cells : List Cell) (n : Nat) : Option Nat := cells[n]?.bind (·.parent)

/-- Cells of which a child comes behind its parent and names it, and a parent that is named has
the child. -/
structure Arena where
  cells : List Cell
  behind : ∀ p, ∀ c ∈ childrenAt cells p, p < c
  named : ∀ p, ∀ c ∈ childrenAt cells p, parentAt cells c = some p
  had : ∀ p c, parentAt cells c = some p → c ∈ childrenAt cells p

namespace Arena

def children (t : Arena) (n : Nat) : List Nat := childrenAt t.cells n

def parent (t : Arena) (n : Nat) : Option Nat := parentAt t.cells n

def covers (t : Arena) (n : Nat) (offset : Int) (rightBound : Bool) : Bool :=
  (t.cells[n]?.map (·.extent.covers offset rightBound)).getD false

variable {t : Arena}

theorem lt_of_mem_children {p c : Nat} (h : c ∈ t.children p) : p < c := t.behind p c h

theorem mem_children_iff {p c : Nat} : c ∈ t.children p ↔ t.parent c = some p :=
  ⟨t.named p c, t.had p c⟩

theorem lt_length_of_parent {p c : Nat} (h : t.parent c = some p) : c < t.cells.length := by
  obtain ⟨cell, hcell, -⟩ := Option.bind_eq_some_iff.mp h
  exact (List.getElem?_eq_some_iff.mp hcell).1

theorem decreasing {p c : Nat} (h : c ∈ t.children p) :
    t.cells.length - c < t.cells.length - p := by
  have hlt := lt_of_mem_children h
  have hlen := lt_length_of_parent (mem_children_iff.mp h)
  omega

/-- The innermost cell around an offset, from a cell down.  The last child that covers the offset
is tried first. -/
def find? (t : Arena) (offset : Int) (rightBound : Bool) (n : Nat) : Option Nat :=
  if t.covers n offset rightBound then
    ((t.children n).attach.reverse.findSome? fun c => t.find? offset rightBound c.1).or (some n)
  else none
termination_by t.cells.length - n
decreasing_by exact decreasing c.2

/-- The cells from a cell down: a cell before its children, the children in order. -/
def preorder (t : Arena) (n : Nat) : List Nat :=
  n :: (t.children n).attach.flatMap fun c => t.preorder c.1
termination_by t.cells.length - n
decreasing_by exact decreasing c.2

/-- The cells that are met when the links to the parents are followed. -/
def ancestors (t : Arena) (n : Nat) : List Nat :=
  match _named : t.parent n with
  | none => []
  | some p => p :: t.ancestors p
termination_by n
decreasing_by exact lt_of_mem_children (mem_children_iff.mpr _named)

end Arena

end YamlSpan
