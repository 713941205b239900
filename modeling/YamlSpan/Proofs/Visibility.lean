import Mathlib.Logic.Relation
import YamlSpan.Node.Path
import YamlSpan.Proofs.Linking

/-!
# What is found around an offset

A cell is visible from an offset if the offset is inside of it and of all that it hangs below.
The search goes down while a child covers the offset, and takes the last such child, so it ends at
the visible cell that is listed last.

* `Arena.Leads`            the search leads from a cell to another one
* `Arena.IsVisible`        visible from an offset
* `Node.pathTo_reaches`    the way through a tree is the way up along the links
* `search_is_exact`        what the search finds, and what the links lead to from there
-/

namespace YamlSpan

namespace Arena

variable {t : Arena} {offset : Int} {rightBound : Bool} {n m p c : Nat}

/-! ### down and up along the links -/

theorem find?_eq (t : Arena) (offset : Int) (rightBound : Bool) (n : Nat) :
    t.find? offset rightBound n
      = if t.covers n offset rightBound then
          ((t.children n).reverse.findSome? (t.find? offset rightBound)).or (some n)
        else none := by
  have hattach : (t.children n).attach.reverse.unattach = (t.children n).reverse := by simp
  rw [find?, List.findSome?_subtype (g := t.find? offset rightBound) (fun _ _ => rfl), hattach]

theorem preorder_eq (t : Arena) (n : Nat) :
    t.preorder n = n :: (t.children n).flatMap t.preorder := by
  rw [preorder, List.flatMap_subtype (g := t.preorder) (fun _ _ => rfl), List.unattach_attach]

theorem ancestors_of_none (h : t.parent n = none) : t.ancestors n = [] := by
  rw [ancestors]
  split <;> simp_all

theorem ancestors_of_some (h : t.parent n = some p) : t.ancestors n = p :: t.ancestors p := by
  rw [ancestors]
  split <;> simp_all

/-- One cell is another one or hangs below it. -/
def Above (t : Arena) : Nat → Nat → Prop := Relation.ReflTransGen fun p c => c ∈ t.children p

/-- What is above a child is above its parent, the child itself apart: it has one parent. -/
theorem Above.of_child {a : Nat} (h : t.Above a c) (hc : c ∈ t.children p) :
    a = c ∨ t.Above a p := by
  obtain rfl | ⟨q, hq, hqc⟩ := Relation.ReflTransGen.cases_tail h
  · exact .inl rfl
  · have hparents : some q = some p :=
      (mem_children_iff.mp hqc).symm.trans (mem_children_iff.mp hc)
    exact .inr (Option.some.inj hparents ▸ hq)

theorem above_of_mem_preorder (h : m ∈ t.preorder n) : t.Above n m := by
  induction n using preorder.induct t with
  | case1 n ih =>
    rw [preorder_eq, List.mem_cons] at h
    obtain rfl | h := h
    · exact .refl
    · obtain ⟨c, hc, hm⟩ := List.mem_flatMap.mp h
      exact .head hc (ih ⟨c, hc⟩ hm)

theorem mem_ancestors_iff {a : Nat} :
    a ∈ t.ancestors n ↔ Relation.TransGen (fun p c => c ∈ t.children p) a n := by
  induction n using ancestors.induct t with
  | case1 n hnone =>
    rw [ancestors_of_none hnone, Relation.TransGen.tail'_iff]
    refine ⟨fun h => absurd h (List.not_mem_nil), fun ⟨q, _, hq⟩ => ?_⟩
    rw [mem_children_iff, hnone] at hq
    exact absurd hq (by simp)
  | case2 n p hsome ih =>
    have hp : n ∈ t.children p := mem_children_iff.mpr hsome
    rw [ancestors_of_some hsome, List.mem_cons, ih]
    constructor
    · intro h
      exact .tail' (Relation.reflTransGen_iff_eq_or_transGen.mpr (h.imp_left Eq.symm)) hp
    · intro h
      obtain ⟨q, haq, hq⟩ := Relation.TransGen.tail'_iff.mp h
      have hqp : q = p := by simpa [mem_children_iff.mp hq] using hsome
      subst hqp
      exact (Relation.reflTransGen_iff_eq_or_transGen.mp haq).imp_left Eq.symm

theorem isChain_ancestors (t : Arena) (n : Nat) :
    (n :: t.ancestors n).IsChain fun c p => t.parent c = some p := by
  induction n using ancestors.induct t with
  | case1 n hnone =>
    rw [ancestors_of_none hnone]
    exact .singleton n
  | case2 n p hsome ih =>
    rw [ancestors_of_some hsome]
    exact .cons_cons hsome ih

theorem parent_zero (t : Arena) : t.parent 0 = none := by
  cases h : t.parent 0 with
  | none => rfl
  | some p => exact absurd (lt_of_mem_children (mem_children_iff.mpr h)) (Nat.not_lt_zero p)

/-- The links of what hangs below the root lead to it. -/
theorem getLast?_ancestors (h : t.Above 0 n) : (n :: t.ancestors n).getLast? = some 0 := by
  induction h with
  | refl => rw [ancestors_of_none t.parent_zero]; rfl
  | tail _ hc ih =>
    rw [ancestors_of_some (mem_children_iff.mp hc), List.getLast?_cons_cons]
    exact ih

/-! ### where the search leads -/

/-- The search leads from a cell to another one: down to the last child that covers the offset,
as long as there is one. -/
inductive Leads (t : Arena) (offset : Int) (rightBound : Bool) : Nat → Nat → Prop
  | here {n : Nat} (covers : t.covers n offset rightBound = true)
      (none : ∀ c ∈ t.children n, t.covers c offset rightBound = false) :
      Leads t offset rightBound n n
  | down {n c m : Nat} {front back : List Nat} (covers : t.covers n offset rightBound = true)
      (split : t.children n = front ++ c :: back)
      (none : ∀ d ∈ back, t.covers d offset rightBound = false)
      (rest : Leads t offset rightBound c m) : Leads t offset rightBound n m

theorem find?_eq_none_iff :
    t.find? offset rightBound n = none ↔ t.covers n offset rightBound = false := by
  rw [find?_eq]
  cases h : t.covers n offset rightBound <;> simp

theorem find?_leads (h : t.find? offset rightBound n = some m) :
    t.Leads offset rightBound n m := by
  induction n using preorder.induct t with
  | case1 n ih =>
    rw [find?_eq] at h
    split at h
    next hcovers =>
      obtain hfound | ⟨hnone, hself⟩ := Option.or_eq_some_iff.mp h
      · obtain ⟨back, c, front, hsplit, hc, hback⟩ := List.findSome?_eq_some_iff.mp hfound
        rw [List.reverse_eq_iff] at hsplit
        have hmem : c ∈ t.children n := by simp [hsplit]
        refine .down hcovers (by simpa using hsplit) (fun d hd => ?_) (ih ⟨c, hmem⟩ hc)
        exact find?_eq_none_iff.mp (hback d (by simpa using hd))
      · obtain rfl := Option.some.inj hself
        refine .here hcovers fun c hc => ?_
        exact find?_eq_none_iff.mp (List.findSome?_eq_none_iff.mp hnone c (by simpa using hc))
    next => exact absurd h (by simp)

/-- A cell and all that it hangs below cover the offset. -/
def IsVisible (t : Arena) (offset : Int) (rightBound : Bool) (n : Nat) : Prop :=
  ∀ a, t.Above a n → t.covers a offset rightBound = true

namespace Leads

theorem covers_start (h : t.Leads offset rightBound n m) :
    t.covers n offset rightBound = true := by
  cases h <;> assumption

theorem above (h : t.Leads offset rightBound n m) : t.Above n m := by
  induction h with
  | here => exact .refl
  | down _ hsplit _ _ ih => exact .head (by simp [hsplit]) ih

theorem innermost (h : t.Leads offset rightBound n m) :
    ∀ c ∈ t.children m, t.covers c offset rightBound = false := by
  induction h with
  | here _ hnone => exact hnone
  | down _ _ _ _ ih => exact ih

theorem visible (h : t.Leads offset rightBound n m) (hn : t.IsVisible offset rightBound n) :
    t.IsVisible offset rightBound m := by
  induction h with
  | here => exact hn
  | @down n c m front back _ hsplit _ hrest ih =>
    refine ih fun a ha => ?_
    have hc : c ∈ t.children n := by simp [hsplit]
    obtain rfl | habove := ha.of_child hc
    · exact hrest.covers_start
    · exact hn a habove

/-- Behind the cell that is found, nothing visible is listed: it hangs below a cell that does not
cover the offset. -/
theorem last (h : t.Leads offset rightBound n m) :
    ∃ before after, t.preorder n = before ++ m :: after ∧
      ∀ q ∈ after, ¬ t.IsVisible offset rightBound q := by
  have hidden : ∀ children : List Nat, (∀ d ∈ children, t.covers d offset rightBound = false) →
      ∀ q ∈ children.flatMap t.preorder, ¬ t.IsVisible offset rightBound q := by
    intro children hnone q hq hvisible
    obtain ⟨d, hd, hqd⟩ := List.mem_flatMap.mp hq
    have hcovers := hvisible d (above_of_mem_preorder hqd)
    rw [hnone d hd] at hcovers
    exact absurd hcovers (by simp)
  induction h with
  | @here n _ hnone => exact ⟨[], _, t.preorder_eq n, hidden _ hnone⟩
  | @down n c m front back _ hsplit hnone _ ih =>
    obtain ⟨before, after, heq, hafter⟩ := ih
    refine ⟨n :: front.flatMap t.preorder ++ before, after ++ back.flatMap t.preorder, ?_, ?_⟩
    · rw [preorder_eq, hsplit]
      simp [heq]
    · intro q hq
      exact (List.mem_append.mp hq).elim (hafter q) (hidden back hnone q)

end Leads

theorem isVisible_zero (h : t.covers 0 offset rightBound = true) :
    t.IsVisible offset rightBound 0 := by
  intro a ha
  obtain rfl | ⟨p, -, hp⟩ := Relation.ReflTransGen.cases_tail ha
  · exact h
  · exact absurd (lt_of_mem_children hp) (Nat.not_lt_zero p)

end Arena

/-! ### the way through a tree -/

/-- A tree stands at a number. -/
def Node.StandsIn (t : Arena) (n : Nat) (node : Node) : Prop :=
  ∃ parent, node.Stands t.cells parent n

theorem Node.Stands.covers {t : Arena} {parent : Option Nat} {n : Nat} {node : Node}
    (h : node.Stands t.cells parent n) (offset : Int) (rightBound : Bool) :
    t.covers n offset rightBound = node.extent.covers offset rightBound := by
  rw [Arena.covers, h.cell]
  rfl

/-- A way through a tree ends at the cell that is found, and from there the links lead back along
it. -/
def Arena.Reaches (t : Arena) (found : Option Nat) (path above : List Node) : Prop :=
  match found with
  | none => path = []
  | some m => path ≠ [] ∧
    List.Forall₂ (fun n node => Node.StandsIn t n node) (m :: t.ancestors m) (path.reverse ++ above)

section Reaches

variable {t : Arena} {offset : Int} {rightBound : Bool} {above : List Node}

theorem Arena.Reaches.or {first later : Option Nat} {path laterOnes : List Node}
    (hlater : t.Reaches later laterOnes above) (hfirst : t.Reaches first path above) :
    t.Reaches (later.or first) (laterPath path laterOnes) above := by
  cases later with
  | none =>
    obtain rfl : laterOnes = [] := hlater
    exact hfirst
  | some m =>
    rw [laterPath_of_ne_nil hlater.1]
    exact hlater

/-- Among nodes side by side the search and the way take the last one that covers the offset. -/
theorem itemsPathTo_reaches {n : Nat} {numbers : List Nat} {items : List Node}
    (hstands : List.Forall₂ (fun c (item : Node) => item.Stands t.cells (some n) c) numbers items)
    (hreaches : ∀ item ∈ items, ∀ c, item.Stands t.cells (some n) c →
      t.Reaches (t.find? offset rightBound c) (item.pathTo offset rightBound) above) :
    t.Reaches (numbers.reverse.findSome? (t.find? offset rightBound))
      (itemsPathTo offset rightBound items) above := by
  induction hstands with
  | nil => rfl
  | @cons c item _ _ hitem _ ih =>
    obtain ⟨hfirst, hrest⟩ := List.forall_mem_cons.mp hreaches
    rw [List.reverse_cons, List.findSome?_append, itemsPathTo, List.findSome?_singleton]
    exact (ih hrest).or (hfirst c hitem)

/-- The way through a tree that stands at a number is the way of the search from there. -/
theorem Node.pathTo_reaches {n : Nat} {parent : Option Nat} (node : Node)
    (hstands : node.Stands t.cells parent n)
    (habove : List.Forall₂ (fun n node => Node.StandsIn t n node) (t.ancestors n) above) :
    t.Reaches (t.find? offset rightBound n) (node.pathTo offset rightBound) above := by
  induction node using Node.children_induction generalizing parent n above with
  | step node ih =>
    have hself : List.Forall₂ (fun n node => Node.StandsIn t n node) (n :: t.ancestors n)
        (node :: above) := .cons ⟨parent, hstands⟩ habove
    -- Below the node, what is above includes the node.
    have hbelow : t.Reaches ((t.children n).reverse.findSome? (t.find? offset rightBound))
        (itemsPathTo offset rightBound node.children) (node :: above) := by
      refine itemsPathTo_reaches hstands.children fun child hchild c hc => ?_
      refine ih child hchild hc ?_
      rw [Arena.ancestors_of_some hc.parentAt]
      exact hself
    rw [Arena.find?_eq, Node.pathTo_eq, hstands.covers]
    split
    next =>
      cases hfound : (t.children n).reverse.findSome? (t.find? offset rightBound) with
      | none =>
        rw [hfound] at hbelow
        rw [show itemsPathTo offset rightBound node.children = [] from hbelow]
        exact ⟨by simp, hself⟩
      | some m =>
        rw [hfound] at hbelow
        refine ⟨by simp, ?_⟩
        rw [List.reverse_cons, List.append_assoc, List.singleton_append]
        exact hbelow.2
    next => rfl

end Reaches

/-! ### the order of the cells -/

theorem flatMap_preorder_itemCells {t : Arena} {n next : Nat} {items : List Node}
    (hstands : (itemCells n next items).2 <+: t.cells.drop next)
    (hitems : ∀ item ∈ items, ∀ c, item.Stands t.cells (some n) c →
      t.preorder c = List.range' c (item.cells (some n) c).length) :
    (itemCells n next items).1.flatMap t.preorder
      = List.range' next (itemCells n next items).2.length := by
  induction items generalizing next with
  | nil => rfl
  | cons item rest ih =>
    obtain ⟨hitem, hrest⟩ := stands_cons hstands
    obtain ⟨hfirst, hmore⟩ := List.forall_mem_cons.mp hitems
    simp only [itemCells, List.flatMap_cons, List.length_append]
    rw [hfirst next hitem, ih hrest hmore, List.range'_append_1]

/-- Down along the links each cell of a tree comes once, in the order of the numbers. -/
theorem Node.Stands.preorder {t : Arena} {parent : Option Nat} {n : Nat} {node : Node}
    (h : node.Stands t.cells parent n) :
    t.preorder n = List.range' n (node.cells parent n).length := by
  induction node using Node.children_induction generalizing parent n with
  | step node ih =>
    have hchildren : t.children n = (itemCells n (n + 1) node.children).1 := h.childrenAt
    rw [Arena.preorder_eq, hchildren,
      flatMap_preorder_itemCells h.below fun child hchild c hc => ih child hchild hc,
      Node.cells_eq, List.length_cons, List.range'_succ]

/-! ### the search -/

/-- The tree of a raw node is made from its root, to which no parent is linked, with each node once
in pre-order.  The search for an offset finds nothing just if the root does not cover it.  What it
finds otherwise is the visible node that is listed last; none of its children covers the offset,
and the links to the parents lead through all nodes it hangs below, which cover the offset, up to
the root.  These are the nodes on the way through the tree. -/
theorem search_is_exact (text : Text) (raw : RawNode) (offset : Int) (rightBound : Bool) :
    let tree := raw.arena text
    (raw.link text none).run [] = pure (0, tree.cells) ∧
    tree.preorder 0 = List.range tree.cells.length ∧
    tree.parent 0 = none ∧
    match tree.find? offset rightBound 0 with
    | none =>
      tree.covers 0 offset rightBound = false ∧
      (raw.toNode text).find? offset rightBound = none
    | some n =>
      tree.covers 0 offset rightBound = true ∧
      tree.IsVisible offset rightBound n ∧
      (∃ before after, tree.preorder 0 = before ++ n :: after ∧
        ∀ m ∈ after, ¬ tree.IsVisible offset rightBound m) ∧
      (∀ c ∈ tree.children n, tree.covers c offset rightBound = false) ∧
      (n :: tree.ancestors n).IsChain (fun c p => tree.parent c = some p) ∧
      (n :: tree.ancestors n).getLast? = some 0 ∧
      (∀ a, a ∈ tree.ancestors n ↔ Relation.TransGen (fun p c => c ∈ tree.children p) a n) ∧
      (∀ a ∈ tree.ancestors n, tree.covers a offset rightBound = true) ∧
      ∃ node, (raw.toNode text).find? offset rightBound = some node ∧ node.StandsIn tree n ∧
        List.Forall₂ (fun a parent => Node.StandsIn tree a parent) (tree.ancestors n)
          ((raw.toNode text).parents offset rightBound) := by
  intro tree
  have hroot : (raw.toNode text).Stands tree.cells none 0 := raw.stands_root text
  have horder : tree.preorder 0 = List.range tree.cells.length := by
    rw [hroot.preorder, List.range_eq_range', raw.arena_cells]
  have hreaches : tree.Reaches (tree.find? offset rightBound 0)
      ((raw.toNode text).pathTo offset rightBound) [] := by
    refine Node.pathTo_reaches _ hroot ?_
    rw [Arena.ancestors_of_none tree.parent_zero]
    exact .nil
  refine ⟨raw.link_root text, horder, tree.parent_zero, ?_⟩
  cases hfound : tree.find? offset rightBound 0 with
  | none =>
    rw [hfound] at hreaches
    refine ⟨Arena.find?_eq_none_iff.mp hfound, ?_⟩
    rw [Node.find?, show (raw.toNode text).pathTo offset rightBound = [] from hreaches]
    rfl
  | some n =>
    rw [hfound] at hreaches
    have hleads := Arena.find?_leads hfound
    have hvisible := hleads.visible (Arena.isVisible_zero hleads.covers_start)
    refine ⟨hleads.covers_start, hvisible, hleads.last, hleads.innermost,
      tree.isChain_ancestors n, Arena.getLast?_ancestors hleads.above,
      fun a => Arena.mem_ancestors_iff, fun a ha => ?_, ?_⟩
    · exact hvisible a (Arena.mem_ancestors_iff.mp ha).to_reflTransGen
    · obtain ⟨node, parents, hnode, hparents, hpath⟩ := List.forall₂_cons_left_iff.mp hreaches.2
      rw [List.append_nil, List.reverse_eq_iff, List.reverse_cons] at hpath
      refine ⟨node, ?_, hnode, ?_⟩
      · rw [Node.find?, hpath, List.getLast?_concat]
      · rw [Node.parents, hpath, List.dropLast_concat, List.reverse_reverse]
        exact hparents

end YamlSpan
