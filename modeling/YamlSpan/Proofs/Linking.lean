import Mathlib.Data.List.Forall2
import YamlSpan.Node.Linked

/-!
# What the links of a tree are

The cells of a raw node are those of its tree, listed from the root down and from the first child
to the last, each with its number as its place in the list.

* `Node.cells`           that list, from a number on and below a parent
* `RawNode.link_run`     what is made is that list, behind all that was there
* `Node.Stands`          a tree stands at a place among cells
* `RawNode.arena`        so the links of what is made agree
-/

namespace YamlSpan

/-! ### the cells of a tree -/

mutual

/-- The cells of a tree that are numbered from `n` on. -/
def Node.cells (parent : Option Nat) (n : Nat) : Node → List Cell
  | .object extent properties =>
    ⟨parent, extent, .object, (propertyCells n (n + 1) properties).1⟩
      :: (propertyCells n (n + 1) properties).2
  | .property p => p.cells parent n
  | .array extent items =>
    ⟨parent, extent, .array, (itemCells n (n + 1) items).1⟩ :: (itemCells n (n + 1) items).2
  | .string extent text => [⟨parent, extent, .string text, []⟩]
  | .number extent value => [⟨parent, extent, .number value, []⟩]
  | .boolean extent value => [⟨parent, extent, .boolean value, []⟩]
  | .null extent => [⟨parent, extent, .null, []⟩]

/-- The cells of a property. -/
def Property.cells (parent : Option Nat) (n : Nat) : Property → List Cell
  | .mk extent key value =>
    ⟨parent, extent, .property, [n + 1, n + 2]⟩
      :: ⟨some n, key.extent, .string key.text, []⟩ :: value.cells (some n) (n + 2)

/-- The numbers of some nodes below one parent, and their cells. -/
def itemCells (parent next : Nat) : List Node → List Nat × List Cell
  | [] => ([], [])
  | item :: rest =>
    let more := itemCells parent (next + (item.cells (some parent) next).length) rest
    (next :: more.1, item.cells (some parent) next ++ more.2)

/-- The numbers of the properties of an object, and their cells. -/
def propertyCells (parent next : Nat) : List Property → List Nat × List Cell
  | [] => ([], [])
  | p :: rest =>
    let more := propertyCells parent (next + (p.cells (some parent) next).length) rest
    (next :: more.1, p.cells (some parent) next ++ more.2)

end

theorem propertyCells_eq (parent next : Nat) (properties : List Property) :
    propertyCells parent next properties = itemCells parent next (properties.map .property) := by
  induction properties generalizing next with
  | nil => rfl
  | cons p rest ih => simp only [propertyCells, List.map_cons, itemCells, Node.cells, ih]

/-- A node comes first, with the numbers of its children; their cells follow. -/
theorem Node.cells_eq (parent : Option Nat) (n : Nat) (node : Node) :
    node.cells parent n
      = ⟨parent, node.extent, node.label, (itemCells n (n + 1) node.children).1⟩
        :: (itemCells n (n + 1) node.children).2 := by
  cases node with
  | object extent properties =>
    rw [cells, propertyCells_eq]
    rfl
  | property p =>
    obtain ⟨extent, key, value⟩ := p
    simp [cells, Property.cells, itemCells, children, Property.key, Property.value, Key.node,
      Node.extent, Property.extent, label]
  | array | string | number | boolean | null => rfl

theorem Node.cells_ofScalar (parent : Option Nat) (n : Nat) (extent : Extent) (s : Scalar) :
    (ofScalar extent s).cells parent n = [⟨parent, extent, .ofScalar s, []⟩] := by
  cases s <;> rfl

/-! ### what is made -/

section Made

variable (text : Text)

theorem newCell_run (parent : Option Nat) (extent : Extent) (label : Label) (cells : List Cell) :
    (newCell parent extent label).run cells
      = pure (cells.length, cells ++ [⟨parent, extent, label, []⟩]) :=
  rfl

theorem addChild_run (before : List Cell) (cell : Cell) (after : List Cell) (child : Nat) :
    (addChild before.length child).run (before ++ cell :: after)
      = pure ((), before ++ { cell with children := cell.children ++ [child] } :: after) := by
  simp [addChild, List.modify_eq_take_cons_drop]

mutual

/-- The cells of the tree of a raw node are made behind all that was there. -/
theorem RawNode.link_run (parent : Option Nat) (cells : List Cell) : (raw : RawNode) →
    (raw.link text parent).run cells
      = pure (cells.length, cells ++ (raw.toNode text).cells parent cells.length)
  | .scalar span value plain tag => by
    rw [RawNode.toNode, Node.cells_ofScalar]
    rfl
  | .inclusion span value => rfl
  | .reference _ _ (some target) => by
    rw [RawNode.link, RawNode.toNode]
    exact target.link_run parent cells
  | .reference span _ none => rfl
  | .sequence span items => by
    have hitems := linkItems_run cells ⟨parent, span.extent, .array, []⟩ [] span.extent items
    simp only [RawNode.link, StateT.run_bind, newCell_run, pure_bind, hitems, StateT.run_pure,
      RawNode.toNode, Node.cells, List.nil_append, List.length_nil, Nat.add_zero]
  | .map span entries => by
    have hentries := linkEntries_run cells ⟨parent, span.extent, .object, []⟩ [] entries
    simp only [RawNode.link, StateT.run_bind, newCell_run, pure_bind, hentries, StateT.run_pure,
      RawNode.toNode, Node.cells, List.nil_append, List.length_nil, Nat.add_zero]
  | .entry e => by
    rw [RawNode.link, RawNode.toNode, Node.cells]
    exact e.link_run parent cells

/-- The same for an entry. -/
theorem RawEntry.link_run (parent : Option Nat) (cells : List Cell) : (e : RawEntry) →
    (e.link text parent).run cells
      = pure (cells.length, cells ++ (e.toProperty text).cells parent cells.length)
  | .mk span key (some value) => by
    have hvalue := fun cells' => value.link_run (some cells.length) cells'
    simp only [RawEntry.link, StateT.run_bind, newCell_run, pure_bind, hvalue, StateT.run_pure,
      List.append_assoc, List.cons_append, addChild_run]
    simp [RawEntry.toProperty, Property.cells]
  | .mk span key none => by
    simp only [RawEntry.link, StateT.run_bind, newCell_run, pure_bind, StateT.run_pure,
      List.append_assoc, List.cons_append, addChild_run]
    simp [RawEntry.toProperty, Property.cells, Node.cells]

/-- The cells of items come last, and their numbers are handed to the array. -/
theorem linkItems_run (before : List Cell) (array : Cell) (after : List Cell) (extent : Extent) :
    (items : List (Option RawNode)) →
    (linkItems text before.length extent items).run (before ++ array :: after)
      = let below := itemCells before.length (before.length + 1 + after.length)
          (itemsToNodes text extent items)
        pure ((), before ++ { array with children := array.children ++ below.1 }
          :: (after ++ below.2))
  | [] => by
    simp [linkItems, itemsToNodes, itemCells]
  | some item :: rest => by
    have hitem := item.link_run (some before.length) (before ++ array :: after)
    have hrest := fun array' after' => linkItems_run before array' after' extent rest
    simp only [linkItems, StateT.run_bind, hitem, pure_bind, List.append_assoc, List.cons_append,
      addChild_run, hrest]
    simp [itemsToNodes, itemCells, Nat.add_assoc, Nat.add_comm 1]
  | none :: rest => by
    have hrest := fun array' after' => linkItems_run before array' after' extent rest
    cases hempty : rest.isEmpty with
    | true => simp [linkItems, itemsToNodes, itemCells, hempty]
    | false =>
      rw [linkItems, if_neg (by simp [hempty])]
      simp only [StateT.run_bind, newCell_run, pure_bind, List.append_assoc,
        List.cons_append, addChild_run, hrest]
      simp [itemsToNodes, itemCells, hempty, Node.cells, Nat.add_assoc, Nat.add_comm 1]

/-- The cells of entries come last, and their numbers are handed to the object. -/
theorem linkEntries_run (before : List Cell) (object : Cell) (after : List Cell) :
    (entries : List RawEntry) →
    (linkEntries text before.length entries).run (before ++ object :: after)
      = let below := propertyCells before.length (before.length + 1 + after.length)
          (entriesToProperties text entries)
        pure ((), before ++ { object with children := object.children ++ below.1 }
          :: (after ++ below.2))
  | [] => by
    simp [linkEntries, entriesToProperties, propertyCells]
  | e :: rest => by
    have hentry := e.link_run (some before.length) (before ++ object :: after)
    have hrest := fun object' after' => linkEntries_run before object' after' rest
    simp only [linkEntries, StateT.run_bind, hentry, pure_bind, List.append_assoc,
      List.cons_append, addChild_run, hrest]
    simp [entriesToProperties, propertyCells, Nat.add_assoc, Nat.add_comm 1]

end

end Made

/-! ### where a tree stands -/

/-- The cells of a tree are among others, from a number on. -/
def Node.Stands (cells : List Cell) (parent : Option Nat) (n : Nat) (node : Node) : Prop :=
  node.cells parent n <+: cells.drop n

section Stands

variable {cells : List Cell} {parent : Option Nat} {n : Nat} {node : Node}

theorem Node.Stands.cell (h : node.Stands cells parent n) :
    cells[n]? = some ⟨parent, node.extent, node.label, (itemCells n (n + 1) node.children).1⟩ := by
  obtain ⟨rest, hrest⟩ := h
  rw [Node.cells_eq] at hrest
  have hhead : (cells.drop n)[0]? = cells[n]? := by rw [List.getElem?_drop, Nat.add_zero]
  rw [← hhead, ← hrest]
  rfl

theorem Node.Stands.childrenAt (h : node.Stands cells parent n) :
    childrenAt cells n = (itemCells n (n + 1) node.children).1 := by
  rw [YamlSpan.childrenAt, h.cell]
  rfl

theorem Node.Stands.parentAt (h : node.Stands cells parent n) : parentAt cells n = parent := by
  rw [YamlSpan.parentAt, h.cell]
  rfl

/-- Behind a node stand the cells of its children. -/
theorem Node.Stands.below (h : node.Stands cells parent n) :
    (itemCells n (n + 1) node.children).2 <+: cells.drop (n + 1) := by
  obtain ⟨rest, hrest⟩ := h
  refine ⟨rest, ?_⟩
  rw [Node.cells_eq] at hrest
  rw [← List.drop_drop, ← hrest]
  rfl

variable {next : Nat} {items : List Node}

theorem le_of_mem_itemCells {c : Nat} (h : c ∈ (itemCells n next items).1) : next ≤ c := by
  induction items generalizing next with
  | nil => simp [itemCells] at h
  | cons item rest ih =>
    obtain rfl | hrest := List.mem_cons.mp h
    · exact Nat.le_refl _
    · have := ih hrest
      omega

theorem stands_cons {item : Node} {rest : List Node}
    (h : (itemCells n next (item :: rest)).2 <+: cells.drop next) :
    item.Stands cells (some n) next ∧
      (itemCells n (next + (item.cells (some n) next).length) rest).2
        <+: cells.drop (next + (item.cells (some n) next).length) := by
  obtain ⟨more, hmore⟩ := h
  rw [itemCells, List.append_assoc] at hmore
  refine ⟨⟨_, hmore⟩, more, ?_⟩
  rw [← List.drop_drop, ← hmore, List.drop_left]

/-- Each of some nodes stands at its number. -/
theorem forall₂_stands (h : (itemCells n next items).2 <+: cells.drop next) :
    List.Forall₂ (fun c (item : Node) => item.Stands cells (some n) c)
      (itemCells n next items).1 items := by
  induction items generalizing next with
  | nil => exact .nil
  | cons item rest ih =>
    obtain ⟨hitem, hrest⟩ := stands_cons h
    exact .cons hitem (ih hrest)

theorem exists_stands_of_mem {c : Nat} (h : (itemCells n next items).2 <+: cells.drop next)
    (hc : c ∈ (itemCells n next items).1) : ∃ item ∈ items, item.Stands cells (some n) c := by
  induction items generalizing next with
  | nil => simp [itemCells] at hc
  | cons item rest ih =>
    obtain ⟨hitem, hrest⟩ := stands_cons h
    obtain rfl | hmem := List.mem_cons.mp hc
    · exact ⟨item, List.mem_cons_self, hitem⟩
    · obtain ⟨other, hother, hstands⟩ := ih hrest hmem
      exact ⟨other, List.mem_cons_of_mem _ hother, hstands⟩

/-- A number in the range of some nodes is in the range of one of them. -/
theorem exists_stands_of_range {q : Nat} (h : (itemCells n next items).2 <+: cells.drop next)
    (hle : next ≤ q) (hlt : q < next + (itemCells n next items).2.length) :
    ∃ c ∈ (itemCells n next items).1, ∃ item ∈ items, item.Stands cells (some n) c ∧
      c ≤ q ∧ q < c + (item.cells (some n) c).length := by
  induction items generalizing next with
  | nil =>
    simp only [itemCells, List.length_nil] at hlt
    omega
  | cons item rest ih =>
    obtain ⟨hitem, hrest⟩ := stands_cons h
    by_cases hq : q < next + (item.cells (some n) next).length
    · exact ⟨next, List.mem_cons_self, item, List.mem_cons_self, hitem, hle, hq⟩
    · have hlen : q < next + (item.cells (some n) next).length
          + (itemCells n (next + (item.cells (some n) next).length) rest).2.length := by
        simp only [itemCells, List.length_append] at hlt
        omega
      obtain ⟨c, hc, other, hother, hfound⟩ := ih hrest (by omega) hlen
      exact ⟨c, List.mem_cons_of_mem _ hc, other, List.mem_cons_of_mem _ hother, hfound⟩

/-- The children of a node stand at the numbers it has. -/
theorem Node.Stands.children (h : node.Stands cells parent n) :
    List.Forall₂ (fun c (child : Node) => child.Stands cells (some n) c)
      (YamlSpan.childrenAt cells n) node.children := by
  rw [h.childrenAt]
  exact forall₂_stands h.below

/-- Every number in the range of a tree is that of a node of it, which its parent has. -/
theorem Node.Stands.inside {q : Nat} (h : node.Stands cells parent n) (hlt : n < q)
    (hrange : q < n + (node.cells parent n).length) :
    ∃ p sub, Node.Stands cells (some p) q sub ∧ q ∈ YamlSpan.childrenAt cells p := by
  induction node using Node.children_induction generalizing parent n with
  | step node ih =>
    rw [Node.cells_eq, List.length_cons] at hrange
    obtain ⟨c, hc, child, hchild, hstands, hle, hq⟩ :=
      exists_stands_of_range h.below hlt (by omega)
    by_cases heq : c = q
    · subst heq
      exact ⟨n, child, hstands, h.childrenAt ▸ hc⟩
    · exact ih child hchild hstands (by omega) hq

end Stands

/-! ### the links agree -/

theorem Node.stands_self (node : Node) : node.Stands (node.cells none 0) none 0 :=
  List.prefix_refl _

/-- Every cell of a tree is that of a node of it, and its parent has it. -/
theorem Node.stands_everywhere (node : Node) {q : Nat} (h : q < (node.cells none 0).length) :
    ∃ parent sub, Node.Stands (node.cells none 0) parent q sub ∧
      ∀ p, parent = some p → q ∈ childrenAt (node.cells none 0) p := by
  by_cases hq : q = 0
  · subst hq
    exact ⟨none, node, node.stands_self, by simp⟩
  · have hrange : q < 0 + (node.cells none 0).length := by omega
    obtain ⟨p, sub, hstands, hmem⟩ := node.stands_self.inside (Nat.pos_of_ne_zero hq) hrange
    exact ⟨some p, sub, hstands, fun p' hp' => Option.some.inj hp' ▸ hmem⟩

theorem lt_length_of_mem_childrenAt {cells : List Cell} {p c : Nat} (h : c ∈ childrenAt cells p) :
    p < cells.length := by
  by_contra hge
  rw [childrenAt, List.getElem?_eq_none (by omega)] at h
  simp at h

/-- A tree with its links. -/
def Node.arena (node : Node) : Arena where
  cells := node.cells none 0
  behind p c h := by
    obtain ⟨parent, sub, hstands, -⟩ := node.stands_everywhere (lt_length_of_mem_childrenAt h)
    rw [hstands.childrenAt] at h
    exact le_of_mem_itemCells h
  named p c h := by
    obtain ⟨parent, sub, hstands, -⟩ := node.stands_everywhere (lt_length_of_mem_childrenAt h)
    rw [hstands.childrenAt] at h
    obtain ⟨child, -, hchild⟩ := exists_stands_of_mem hstands.below h
    exact hchild.parentAt
  had p c h := by
    obtain ⟨cell, hcell, -⟩ := Option.bind_eq_some_iff.mp h
    obtain ⟨parent, sub, hstands, hmem⟩ :=
      node.stands_everywhere (List.getElem?_eq_some_iff.mp hcell).1
    exact hmem p (hstands.parentAt.symm.trans h)

/-- The cells that are made for a raw node, which has no parent. -/
def RawNode.arena (text : Text) (raw : RawNode) : Arena where
  cells := ((raw.link text none).run []).2
  behind := by
    rw [raw.link_run text]
    exact (raw.toNode text).arena.behind
  named := by
    rw [raw.link_run text]
    exact (raw.toNode text).arena.named
  had := by
    rw [raw.link_run text]
    exact (raw.toNode text).arena.had

theorem RawNode.arena_cells (text : Text) (raw : RawNode) :
    (raw.arena text).cells = (raw.toNode text).cells none 0 := by
  change ((raw.link text none).run []).2 = _
  rw [raw.link_run text]
  rfl

/-- What is made first is the root. -/
theorem RawNode.link_root (text : Text) (raw : RawNode) :
    (raw.link text none).run [] = pure (0, (raw.arena text).cells) := by
  rw [raw.link_run text, raw.arena_cells]
  rfl

theorem RawNode.stands_root (text : Text) (raw : RawNode) :
    (raw.toNode text).Stands (raw.arena text).cells none 0 := by
  rw [raw.arena_cells]
  exact Node.stands_self _

end YamlSpan
