import Mathlib.Logic.Relation
import YamlSpan.Node.Path
import YamlSpan.Node.Visitor

/-!
# Where a traversal goes

The address of a node tells the way down to it from the root: which child to take, from which of
the children of that one to go on, and so on.  A traversal meets the node at each address once, in
the order of the addresses: a node before all below it, and all below a child before the next one.

* `Node.visited`                the nodes that are met
* `Node.at?`, `InPreorder`      the node at an address, and all nodes in the order of addresses
* `Visitor.discard_visit`       what a visitor does in a tree, from what it does at each node
* `traversal_follows_children`  the nodes that are met, and what visitors do at them
-/

namespace YamlSpan

/-! ### down along the children -/

/-- The nodes met in the traversal of a tree. -/
def Node.visited (root : Node) : List Node := root.visits.map Visit.node

theorem itemVisits_eq (above : Node) (items : List Node) :
    itemVisits above items = items.flatMap fun item => item.visitsBelow (some above) := by
  induction items with
  | nil => rfl
  | cons item rest ih => rw [itemVisits, ih, List.flatMap_cons]

theorem propertyVisits_eq (above : Node) (properties : List Property) :
    propertyVisits above properties = itemVisits above (properties.map .property) := by
  induction properties with
  | nil => rfl
  | cons p rest ih => rw [propertyVisits, ih, List.map_cons, itemVisits, Node.visitsBelow]

/-- A node is met first, then its children are gone through. -/
theorem Node.visitsBelow_eq (parent : Option Node) (node : Node) :
    node.visitsBelow parent = ⟨node, parent⟩ :: itemVisits node node.children := by
  cases node with
  | object extent properties =>
    rw [visitsBelow, propertyVisits_eq]
    rfl
  | property p =>
    obtain ⟨extent, key, value⟩ := p
    simp [visitsBelow, Property.visitsBelow, itemVisits, children, Property.key, Property.value,
      Key.node]
  | array | string | number | boolean | null => rw [visitsBelow]; rfl

/-- The parent that a tree hangs below does not matter. -/
theorem Node.map_visitsBelow (parent : Option Node) (node : Node) :
    (node.visitsBelow parent).map Visit.node = node.visited := by
  rw [visited, visits, visitsBelow_eq, visitsBelow_eq none]
  rfl

theorem Node.visited_eq (node : Node) :
    node.visited = node :: node.children.flatMap Node.visited := by
  have hbelow : (itemVisits node node.children).map Visit.node
      = node.children.flatMap Node.visited := by
    rw [itemVisits_eq, List.map_flatMap]
    congr 1
    funext child
    exact child.map_visitsBelow (some node)
  rw [visited, visits, visitsBelow_eq, List.map_cons, hbelow]

/-- What is met is what the children lead to. -/
theorem Node.mem_visited_iff {root node : Node} :
    node ∈ root.visited ↔ Relation.ReflTransGen (fun p c => c ∈ p.children) root node := by
  induction root using Node.children_induction with
  | step root ih =>
    rw [visited_eq, List.mem_cons, List.mem_flatMap, Relation.ReflTransGen.cases_head_iff]
    refine or_congr eq_comm (exists_congr fun child => ?_)
    exact and_congr_right (ih child)

/-! ### addresses -/

/-- The node at an address. -/
def Node.at? (node : Node) : List Nat → Option Node
  | [] => some node
  | i :: rest => node.children[i]?.bind fun child => child.at? rest

/-- The node at an address below some nodes side by side. -/
def itemAt? (items : List Node) : List Nat → Option Node
  | [] => none
  | i :: rest => items[i]?.bind fun item => item.at? rest

/-- The nodes at all addresses, each once, in the order of the addresses. -/
def InPreorder (place : List Nat → Option Node) (nodes : List Node) : Prop :=
  ∃ addresses : List (List Nat), addresses.Pairwise (· < ·)
    ∧ (∀ address, address ∈ addresses ↔ (place address).isSome)
    ∧ addresses.map place = nodes.map some

theorem exists_cons_of_itemAt? {items : List Node} {address : List Nat}
    (h : (itemAt? items address).isSome) : ∃ i tail, address = i :: tail := by
  cases address with
  | nil => cases h
  | cons i tail => exact ⟨i, tail, rfl⟩

/-- Counting from one further on keeps the order of addresses. -/
theorem modifyHead_lt_modifyHead {a b : List Nat} (h : a < b) :
    a.modifyHead (· + 1) < b.modifyHead (· + 1) := by
  cases b with
  | nil => exact absurd h (List.not_lt_nil a)
  | cons j b =>
    cases a with
    | nil => exact List.nil_lt_cons (j + 1) b
    | cons i a =>
      rw [List.cons_lt_cons_iff] at h
      exact List.cons_lt_cons_iff.mpr (h.imp Nat.succ_lt_succ (And.imp_left (congrArg (· + 1))))

namespace InPreorder

theorem nil : InPreorder (itemAt? []) [] := by
  refine ⟨[], .nil, fun address => ?_, rfl⟩
  cases address <;> simp [itemAt?]

/-- The addresses below the first of some nodes come before those below the others, which are
counted from one further on. -/
theorem cons {item : Node} {rest nodes more : List Node} (hitem : InPreorder item.at? nodes)
    (hrest : InPreorder (itemAt? rest) more) :
    InPreorder (itemAt? (item :: rest)) (nodes ++ more) := by
  obtain ⟨first, hfirst, hinside, hnodes⟩ := hitem
  obtain ⟨others, hothers, hbehind, hmore⟩ := hrest
  have hnext : ∀ address,
      itemAt? (item :: rest) (address.modifyHead (· + 1)) = itemAt? rest address := by
    intro address
    cases address <;> rfl
  refine ⟨first.map (0 :: ·) ++ others.map (List.modifyHead (· + 1)), ?_, ?_, ?_⟩
  · refine List.pairwise_append.mpr ⟨?_, ?_, ?_⟩
    · exact hfirst.map _ fun a b h => List.cons_lt_cons_iff.mpr (.inr ⟨rfl, h⟩)
    · exact hothers.map _ fun a b h => modifyHead_lt_modifyHead h
    · intro a ha b hb
      obtain ⟨a, -, rfl⟩ := List.mem_map.mp ha
      obtain ⟨b, hother, rfl⟩ := List.mem_map.mp hb
      obtain ⟨i, tail, rfl⟩ := exists_cons_of_itemAt? ((hbehind b).mp hother)
      exact List.cons_lt_cons_iff.mpr (.inl (Nat.succ_pos i))
  · intro address
    rw [List.mem_append, List.mem_map, List.mem_map]
    constructor
    · rintro (⟨tail, htail, rfl⟩ | ⟨other, hother, rfl⟩)
      · exact (hinside tail).mp htail
      · rw [hnext]
        exact (hbehind other).mp hother
    · intro hsome
      -- The first number of an address tells whether it goes below the first node.
      match address with
      | [] => cases hsome
      | 0 :: tail => exact .inl ⟨tail, (hinside tail).mpr hsome, rfl⟩
      | (i + 1) :: tail => exact .inr ⟨i :: tail, (hbehind (i :: tail)).mpr hsome, rfl⟩
  · rw [List.map_append, List.map_map, List.map_map, List.map_append, ← hnodes, ← hmore]
    congr 1
    exact List.map_congr_left fun address _ => hnext address

/-- A node comes before all below it. -/
theorem node {node : Node} {nodes : List Node} (h : InPreorder (itemAt? node.children) nodes) :
    InPreorder node.at? (node :: nodes) := by
  obtain ⟨addresses, hordered, hinside, hnodes⟩ := h
  have hcons : ∀ address ∈ addresses, ∃ i tail, address = i :: tail := fun address haddress =>
    exists_cons_of_itemAt? ((hinside address).mp haddress)
  refine ⟨[] :: addresses, List.pairwise_cons.mpr ⟨?_, hordered⟩, ?_, ?_⟩
  · intro address haddress
    obtain ⟨i, tail, rfl⟩ := hcons address haddress
    exact List.nil_lt_cons i tail
  · intro address
    cases address with
    | nil => exact iff_of_true List.mem_cons_self rfl
    | cons i tail =>
      rw [List.mem_cons, hinside]
      exact or_iff_right (List.cons_ne_nil i tail)
  · rw [List.map_cons, List.map_cons, ← hnodes]
    congr 1
    apply List.map_congr_left
    intro address haddress
    obtain ⟨i, tail, rfl⟩ := hcons address haddress
    rfl

end InPreorder

theorem itemsInPreorder {items : List Node}
    (h : ∀ item ∈ items, InPreorder item.at? item.visited) :
    InPreorder (itemAt? items) (items.flatMap Node.visited) := by
  induction items with
  | nil => exact .nil
  | cons item rest ih =>
    obtain ⟨hitem, hrest⟩ := List.forall_mem_cons.mp h
    rw [List.flatMap_cons]
    exact hitem.cons (ih hrest)

theorem Node.visited_inPreorder (root : Node) : InPreorder root.at? root.visited := by
  induction root using Node.children_induction with
  | step root ih =>
    rw [visited_eq]
    exact (itemsInPreorder ih).node

/-! ### doing something at each of many -/

section
variable {m : Type → Type} [Monad m] [LawfulMonad m] {β γ : Type}

theorem forM_flatMap {list : β → List γ} {act : γ → m PUnit} {actAll : β → m PUnit} {items : List β}
    (h : ∀ item ∈ items, actAll item = (list item).forM act) :
    items.forM actAll = (items.flatMap list).forM act := by
  induction items with
  | nil => rfl
  | cons item rest ih =>
    obtain ⟨hitem, hrest⟩ := List.forall_mem_cons.mp h
    have hmore := ih hrest
    simp only [List.forM_eq_forM] at hitem hmore ⊢
    rw [List.flatMap_cons, List.forM_append, List.forM_cons, hitem, hmore]

theorem forM_filter (p : β → Bool) (act : β → m PUnit) (items : List β) :
    (items.filter p).forM act = items.forM fun item => if p item then act item else pure ⟨⟩ := by
  induction items with
  | nil => rfl
  | cons item rest ih =>
    simp only [List.forM_eq_forM] at ih ⊢
    rw [List.filter_cons, List.forM_cons]
    split
    · rw [List.forM_cons, ih]
    · rw [ih, pure_bind]

/-- Where the answer is known, what is done is all there is to know. -/
theorem eq_discard_of_answer {action : m β} {act : m PUnit} {answer : β}
    (h : action = do act; return answer) :
    discard action = act ∧ action = do discard action; return answer := by
  have hact : discard action = act := by
    rw [h]
    simp [discard, Functor.discard, map_const]
  exact ⟨hact, hact.symm ▸ h⟩

end

/-! ### visitors -/

theorem NodeType.methodName_inj {a b : NodeType} : a.methodName = b.methodName ↔ a = b := by
  cases a <;> cases b <;> decide

/-- The types of nodes that hold no others. -/
def NodeType.leaves : List NodeType := [.string, .number, .boolean, .null]

theorem Node.children_of_leaf {node : Node} (h : node.type ∈ NodeType.leaves) :
    node.children = [] := by
  cases node with
  | object | property | array => simp [Node.type, NodeType.leaves] at h
  | string | number | boolean | null => rfl

namespace Visitor

variable {m : Type → Type} [Monad m] {α : Type}

theorem visitItems_eq (v : Visitor m α) (items : List Node) :
    v.visitItems items = items.map v.visit := by
  induction items with
  | nil => rfl
  | cons item rest ih => rw [visitItems, ih, List.map_cons]

theorem visitProperties_eq (v : Visitor m α) (properties : List Property) :
    v.visitProperties properties = (properties.map Node.property).map v.visit := by
  induction properties with
  | nil => rfl
  | cons p rest ih => rw [visitProperties, ih, List.map_cons, List.map_cons, visit]

/-- What a node holds are its children. -/
theorem visit_eq (v : Visitor m α) (node : Node) :
    v.visit node = v.meet node (node.children.map v.visit) := by
  cases node with
  | object extent properties =>
    rw [visit, visitProperties_eq]
    rfl
  | property p =>
    obtain ⟨extent, key, value⟩ := p
    rw [visit, visitProperty]
    simp [Node.children, Property.key, Property.value, Key.node, visit]
  | array extent items =>
    rw [visit, visitItems_eq]
    rfl
  | string | number | boolean | null =>
    rw [visit]
    rfl

section
variable [LawfulMonad m]

/-- What a visitor does in a tree, if it is known what it does at a node before it visits the
children. -/
theorem discard_visit {v : Visitor m α} {act : Node → m PUnit}
    (step : ∀ node, discard (v.visit node)
      = do act node; node.children.forM fun child => discard (v.visit child)) (root : Node) :
    discard (v.visit root) = root.visited.forM act := by
  induction root using Node.children_induction with
  | step root ih =>
    rw [step, Node.visited_eq, forM_flatMap ih]
    rfl

/-- A visitor that has no other methods for a node than the base visitor enters it, visits its
children and answers with it. -/
theorem visit_of_base {v : Visitor m α} (given : Node → α) (node : Node)
    (hmethod : v.method? node.type.methodName
      = (base given : Visitor m α).method? node.type.methodName)
    (hgeneric : v.generic = (base given : Visitor m α).generic) :
    v.visit node = do
      (do v.enter node; node.children.forM fun child => discard (v.visit child))
      return given node := by
  rw [visit_eq, meet, hmethod, hgeneric, bind_assoc]
  cases node with
  | object | property | array =>
    show (do v.enter _; visitAll given _ _) = _
    simp only [visitAll, List.forM_eq_forM, List.forM_map]
  | string | number | boolean | null =>
    show (do v.enter _; pure (given _)) = _
    simp [Node.children]

/-- The base visitor does what it does first at each node that is met. -/
theorem visit_entering (given : Node → α) (enter : Node → m PUnit) (root : Node) :
    ((base given).entering enter).visit root = do
      root.visited.forM enter
      return given root := by
  have hanswer : ∀ node, ((base given).entering enter).visit node = _ := fun node =>
    visit_of_base given node rfl rfl
  have hstep := fun node => (eq_discard_of_answer (hanswer node)).1
  rw [(eq_discard_of_answer (hanswer root)).2, discard_visit hstep]
  rfl

/-! ### a method for leaves -/

section
variable (given : Node → α) {type : NodeType} (method : Node → List (m α) → m α)

theorem visit_override_of_eq (hleaf : type ∈ NodeType.leaves) {node : Node} (h : node.type = type) :
    ((base given).override type method).visit node = method node [] := by
  have hmethod : ((base given).override type method).method? node.type.methodName = some method :=
    if_pos (congrArg NodeType.methodName h)
  rw [visit_eq, meet, hmethod, Node.children_of_leaf (h ▸ hleaf)]
  exact pure_bind _ _

theorem visit_override_of_ne {node : Node} (h : node.type ≠ type) :
    ((base given).override type method).visit node = do
      node.children.forM fun child => discard (((base given).override type method).visit child)
      return given node := by
  have hmethod : ((base given).override type method).method? node.type.methodName
      = (base given : Visitor m α).method? node.type.methodName :=
    if_neg fun heq => h (NodeType.methodName_inj.mp heq)
  rw [visit_of_base given node hmethod rfl]
  congr 1
  exact pure_bind _ _

/-- At a leaf of its type the method is called, and at other nodes the children are visited. -/
theorem discard_visit_override (hleaf : type ∈ NodeType.leaves) (node : Node) :
    discard (((base given).override type method).visit node)
      = (if node.type = type then discard (method node []) else pure ⟨⟩) >>= fun _ =>
        node.children.forM fun child =>
          discard (((base given).override type method).visit child) := by
  split
  next h =>
    rw [visit_override_of_eq given method hleaf h, Node.children_of_leaf (h ▸ hleaf)]
    exact (bind_pure _).symm
  next h =>
    rw [pure_bind]
    exact (eq_discard_of_answer (visit_override_of_ne given method h)).1

/-- The method is called once at each leaf of its type, in the order in which they are met. -/
theorem visit_override (hleaf : type ∈ NodeType.leaves) (root : Node) :
    ((base given).override type method).visit root
      = if root.type = type then method root []
        else do
          (root.visited.filter (·.type = type)).forM fun leaf => discard (method leaf [])
          return given root := by
  split
  next h => exact visit_override_of_eq given method hleaf h
  next h =>
    have hanswer := (eq_discard_of_answer (visit_override_of_ne given method h)).2
    rw [hanswer, discard_visit (discard_visit_override given method hleaf), forM_filter]
    simp only [decide_eq_true_eq]

end

end

end Visitor

/-- **A traversal follows the children.**  The nodes that are met are those that the children lead
to from the root.  There is one for each address, and they come in the order of the addresses.  The
base visitor does what it does first in a visit at these nodes, in this order, and answers with the
root.  If it is given a method for a type of leaves, that is called once at each leaf of the type,
again in this order, and nothing else is done. -/
theorem traversal_follows_children (root : Node) :
    InPreorder root.at? root.visited
    ∧ (∀ node, node ∈ root.visited
      ↔ Relation.ReflTransGen (fun p c => c ∈ p.children) root node)
    ∧ ∀ (m : Type → Type) [Monad m] [LawfulMonad m] (α : Type) (given : Node → α),
      (∀ enter : Node → m PUnit,
        ((Visitor.base given).entering enter).visit root = do
          root.visited.forM enter
          return given root)
      ∧ ∀ type ∈ NodeType.leaves, ∀ method : Node → List (m α) → m α,
        ((Visitor.base given).override type method).visit root
          = if root.type = type then method root []
            else do
              (root.visited.filter (·.type = type)).forM fun leaf => discard (method leaf [])
              return given root := by
  refine ⟨root.visited_inPreorder, fun node => Node.mem_visited_iff, ?_⟩
  intro m _ _ α given
  refine ⟨fun enter => Visitor.visit_entering given enter root, fun type hleaf method => ?_⟩
  exact Visitor.visit_override given method hleaf root

/-- Three numbers at different depths are collected in their order. -/
theorem traversal_collects_numbers :
    let one : Node := .number ⟨3, 1⟩ (.int 1)
    let two : Node := .number ⟨9, 1⟩ (.int 2)
    let half : Node := .number ⟨16, 3⟩ (.float ⟨0x400c000000000000⟩)
    let root : Node := .object ⟨0, 22⟩
      [.mk ⟨0, 4⟩ ⟨⟨0, 1⟩, "a"⟩ one,
        .mk ⟨5, 16⟩ ⟨⟨5, 1⟩, "b"⟩
          (.array ⟨8, 13⟩ [two, .object ⟨12, 8⟩ [.mk ⟨13, 6⟩ ⟨⟨13, 1⟩, "c"⟩ half]])]
    let collect : Node → List (StateM (List Node) Node) → StateM (List Node) Node :=
      fun node _ => do modify (· ++ [node]); return node
    NodeType.number ∈ NodeType.leaves
    ∧ (((Visitor.base id).override .number collect).visit root).run []
      = (root, [one, two, half]) := by
  intro one two half root collect
  have hleaf : NodeType.number ∈ NodeType.leaves := by decide
  have hvisit := ((traversal_follows_children root).2.2 (StateM (List Node)) Node id).2
    .number hleaf collect
  refine ⟨hleaf, ?_⟩
  rw [hvisit]
  rfl

end YamlSpan
