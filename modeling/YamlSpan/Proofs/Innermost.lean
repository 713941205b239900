import YamlSpan.Node.OfRaw
import YamlSpan.Node.Path
import YamlSpan.Proofs.Laminar
import YamlSpan.Proofs.Resolution

/-!
# When the innermost node is found

A laminar raw tree without references becomes a tree in which children lie inside their parents
and one behind the other, with one exception: what was left out is given the place of all that is
around it.  The search goes down through the last child that covers the offset, so it may go to
such a null in place of a node further inside.

* `RawNode.LeavesOut`                an entry without a value, a sequence with a gap
* `Node.IsLayered`                   children inside their parents and in order, fillers apart
* `RawNode.toNode_layered`           laminar raw trees become layered trees
* `find?_innermost_or_filler`        what is found is innermost, or such a null
* `filler_hides_key`                 a null does hide a key
-/

namespace YamlSpan

/-! ### layers -/

/-- One extent is inside another. -/
def Extent.Inside (a b : Extent) : Prop := b.offset ≤ a.offset ∧ a.stop ≤ b.stop

theorem Extent.Inside.trans {a b c : Extent} (h : a.Inside b) (h' : b.Inside c) : a.Inside c :=
  ⟨Int.le_trans h'.1 h.1, Int.le_trans h.2 h'.2⟩

theorem Extent.Inside.antisymm {a b : Extent} (h : a.Inside b) (h' : b.Inside a) : a = b := by
  obtain ⟨offset, length⟩ := a
  obtain ⟨offset', length'⟩ := b
  simp only [Inside, stop] at h h'
  simp only [mk.injEq]
  omega

theorem Extent.covers_iff {e : Extent} {offset : Int} {rightBound : Bool} :
    e.covers offset rightBound = true ↔
      (e.offset ≤ offset ∧ offset < e.stop) ∨ (rightBound = true ∧ offset = e.stop) := by
  simp [covers]

/-- What is around an extent that covers an offset covers it too. -/
theorem Extent.covers_of_inside {a b : Extent} {offset : Int} {rightBound : Bool}
    (h : a.Inside b) (hforward : a.offset ≤ a.stop) (ha : a.covers offset rightBound = true) :
    b.covers offset rightBound = true := by
  rw [covers_iff] at ha ⊢
  obtain ⟨hstart, hstop⟩ := h
  obtain ⟨hlo, hhi⟩ | ⟨hright, hend⟩ := ha
  · exact .inl (by omega)
  · by_cases hlast : offset = b.stop
    · exact .inr ⟨hright, hlast⟩
    · exact .inl (by omega)

/-- The children of a node lie inside of it and one behind the other, apart from fillers, which
have the extent of the node. -/
structure Node.IsSpaced (filler : Node → Prop) (node : Node) : Prop where
  forward : node.extent.offset ≤ node.extent.stop
  inside : ∀ child ∈ node.children, child.extent.Inside node.extent
  apart : node.children.Pairwise fun a b =>
    (filler a ∧ a.extent = node.extent) ∨ (filler b ∧ b.extent = node.extent) ∨
      a.extent.stop ≤ b.extent.offset

/-- All nodes of a tree are spaced. -/
def Node.IsLayered (filler : Node → Prop) (root : Node) : Prop :=
  ∀ node, Relation.ReflTransGen (fun n m => m ∈ n.children) root node → node.IsSpaced filler

namespace Node.IsLayered

variable {filler : Node → Prop} {root child node n m : Node}

theorem spaced (h : root.IsLayered filler) : root.IsSpaced filler := h root .refl

theorem of_mem (h : root.IsLayered filler) (hchild : child ∈ root.children) :
    child.IsLayered filler :=
  fun node hnode => h node (.head hchild hnode)

theorem of_children (hroot : root.IsSpaced filler)
    (hchildren : ∀ child ∈ root.children, child.IsLayered filler) : root.IsLayered filler := by
  intro node hnode
  obtain rfl | ⟨child, hchild, hbelow⟩ := Relation.ReflTransGen.cases_head hnode
  · exact hroot
  · exact hchildren child hchild node hbelow

theorem inside (h : root.IsLayered filler)
    (hnode : Relation.ReflTransGen (fun n m => m ∈ n.children) root node) :
    node.extent.Inside root.extent := by
  induction hnode with
  | refl => exact ⟨Int.le_refl _, Int.le_refl _⟩
  | tail hmid hnext ih => exact ((h _ hmid).inside _ hnext).trans ih

/-- A tree covers the offsets that its nodes cover. -/
theorem covers_of_below (h : root.IsLayered filler)
    (hnode : Relation.ReflTransGen (fun n m => m ∈ n.children) root node) {offset : Int}
    {rightBound : Bool} (hcovers : node.extent.covers offset rightBound = true) :
    root.extent.covers offset rightBound = true :=
  Extent.covers_of_inside (h.inside hnode) (h node hnode).forward hcovers

end Node.IsLayered

theorem Node.below_of_find? {offset : Int} {rightBound : Bool} {root n : Node}
    (h : root.find? offset rightBound = some n) :
    Relation.ReflTransGen (fun n m => m ∈ n.children) root n := by
  induction root using Node.children_induction with
  | step root ih =>
    obtain ⟨rfl, -⟩ | ⟨front, c, back, hsplit, -, hfound⟩ := find?_cases offset rightBound h
    · exact .refl
    · have hc : c ∈ root.children := by simp [hsplit]
      exact .head hc (ih c hc hfound)

theorem Node.eq_of_leaf {a m : Node} (hleaf : a.children = [])
    (h : Relation.ReflTransGen (fun n m => m ∈ n.children) a m) : m = a := by
  obtain rfl | ⟨c, hc, -⟩ := Relation.ReflTransGen.cases_head h
  · rfl
  · rw [hleaf] at hc
    exact absurd hc List.not_mem_nil

/-- A node that ends where another starts, and has a node inside one of the latter: the inner one
is empty and on the bound. -/
theorem Extent.eq_bound {d c m n : Extent} {offset : Int} {rightBound : Bool}
    (hbound : d.stop ≤ c.offset) (hmd : m.Inside d) (hnc : n.Inside c) (hmn : m.Inside n)
    (hforward : m.offset ≤ m.stop) (hcovers : m.covers offset rightBound = true) :
    rightBound = true ∧ n.offset = offset ∧ m = ⟨offset, 0⟩ := by
  rw [covers_iff] at hcovers
  obtain ⟨place, length⟩ := m
  simp only [Inside, stop] at *
  obtain ⟨hlo, hhi⟩ | ⟨hright, hend⟩ := hcovers
  · omega
  · refine ⟨hright, by omega, ?_⟩
    simp only [mk.injEq]
    omega

/-- In layers, a node that covers the offset is not further inside than what is found, unless a
filler is found or the node is an empty one on the bound at which what is found starts. -/
theorem Node.IsLayered.innermost {filler : Node → Prop} {root n m : Node} {offset : Int}
    {rightBound : Bool} (hleaf : ∀ a, filler a → a.children = []) (h : root.IsLayered filler)
    (hfind : root.find? offset rightBound = some n)
    (hm : Relation.ReflTransGen (fun n m => m ∈ n.children) root m)
    (hcovers : m.extent.covers offset rightBound = true) (hinside : m.extent.Inside n.extent)
    (hne : m.extent ≠ n.extent) :
    filler n ∨ (rightBound = true ∧ n.extent.offset = offset ∧ m.extent = ⟨offset, 0⟩) := by
  induction root using Node.children_induction with
  | step root ih =>
    have hn := Node.below_of_find? hfind
    obtain rfl | ⟨d, hd, hmd⟩ := Relation.ReflTransGen.cases_head hm
    · exact absurd (hinside.antisymm (h.inside hn)) hne
    have hdcovers := (h.of_mem hd).covers_of_below hmd hcovers
    obtain ⟨rfl, hnone⟩ | ⟨front, c, back, hsplit, hback, hfound⟩ :=
      find?_cases offset rightBound hfind
    · rw [hnone d hd] at hdcovers
      exact absurd hdcovers (by simp)
    have hc : c ∈ root.children := by simp [hsplit]
    have hnc := Node.below_of_find? hfound
    have hplace : d ∈ front ∨ d = c ∨ d ∈ back := by simpa [hsplit] using hd
    obtain hfront | rfl | hlater := hplace
    · have hapart := h.spaced.apart
      rw [hsplit, List.pairwise_append] at hapart
      obtain ⟨hfiller, hextent⟩ | ⟨hfiller, -⟩ | hbound :=
        hapart.2.2 d hfront c List.mem_cons_self
      · -- A filler has the extent of the root, which is around what is found.
        rw [Node.eq_of_leaf (hleaf d hfiller) hmd, hextent] at hinside hne
        exact absurd (hinside.antisymm (h.inside hn)) hne
      · rw [Node.eq_of_leaf (hleaf c hfiller) hnc]
        exact .inl hfiller
      · exact .inr (Extent.eq_bound hbound ((h.of_mem hd).inside hmd)
          ((h.of_mem hc).inside hnc) hinside (h m hm).forward hcovers)
    · exact ih d hd (h.of_mem hd) hfound hmd
    · rw [hback d hlater] at hdcovers
      exact absurd hdcovers (by simp)

/-! ### laminar raw trees -/

/-- No node of a raw tree is a reference. -/
def RawNode.HasNoReference (root : RawNode) : Prop :=
  ∀ node, Relation.ReflTransGen (fun n m => m ∈ n.children) root node →
    ∀ span name target, node ≠ .reference span name target

/-- Something is left out that becomes a null with the span of the node: the value of an entry, or
an item of a sequence that is not the last. -/
def RawNode.LeavesOut : RawNode → Prop
  | .entry e => e.value = none
  | .sequence _ items => none ∈ items.dropLast
  | _ => False

/-- The nulls that stand for what a raw tree leaves out. -/
def RawNode.Fills (root : RawNode) (node : Node) : Prop :=
  ∃ gap, Relation.ReflTransGen (fun n m => m ∈ n.children) root gap ∧ gap.LeavesOut ∧
    node = .null gap.span.extent

theorem RawNode.sizeOf_lt_of_mem_children {node child : RawNode} (h : child ∈ node.children) :
    sizeOf child < sizeOf node := by
  cases node with
  | sequence span items => exact RawNode.sizeOf_next h
  | map span entries =>
    obtain ⟨e, he, rfl⟩ := List.mem_map.mp h
    have hsize := List.sizeOf_lt_of_mem he
    simp only [entry.sizeOf_spec, map.sizeOf_spec]
    omega
  | entry e => exact RawNode.sizeOf_next h
  | scalar | inclusion | reference => exact absurd h List.not_mem_nil

section Built

variable (text : Text) {filler : Node → Prop}

theorem RawNode.extent_toNode {raw : RawNode} (hordered : raw.IsOrdered)
    (href : ∀ span name target, raw ≠ .reference span name target) :
    (raw.toNode text).extent = raw.span.extent := by
  cases raw with
  | scalar span value plain tag =>
    rw [toNode]
    cases Scalar.classify value plain tag <;> rfl
  | reference span name target => exact absurd rfl (href span name target)
  | entry e =>
    obtain ⟨span, key, value⟩ := e
    have hextent : (RawEntry.mk span key value).propertyExtent = span.extent := by
      cases key with
      | none => rfl
      | some key =>
        have hkey : span.start = key.span.start := hordered.atKey _ key rfl rfl
        change Extent.mk key.span.start (span.stop - key.span.start) = span.extent
        rw [← hkey, Span.extent]
    cases value <;> exact hextent
  | inclusion | sequence | map => rfl

theorem Span.extent_forward {span : Span} (h : span.start ≤ span.stop) :
    span.extent.offset ≤ span.extent.stop := by
  simp only [extent, Extent.stop]
  omega

theorem Span.extent_stop (span : Span) : span.extent.stop = span.stop := by
  simp only [extent, Extent.stop]
  omega

theorem Node.isLayered_leaf {node : Node} (hleaf : node.children = [])
    (hforward : node.extent.offset ≤ node.extent.stop) : node.IsLayered filler := by
  refine .of_children ⟨hforward, ?_, ?_⟩ ?_
  · simp [hleaf]
  · simp [hleaf]
  · simp [hleaf]

theorem none_mem_dropLast_cons {item : Option RawNode} {rest : List (Option RawNode)}
    (h : none ∈ rest.dropLast) : none ∈ (item :: rest).dropLast := by
  cases rest with
  | nil => exact absurd h List.not_mem_nil
  | cons _ _ => exact List.mem_cons_of_mem _ h

theorem none_mem_dropLast {rest : List (Option RawNode)} (h : ¬ rest.isEmpty = true) :
    none ∈ (none :: rest).dropLast := by
  cases rest with
  | nil => exact absurd rfl h
  | cons _ _ => exact List.mem_cons_self

/-- The items of an array are those of the sequence, or nulls for what it leaves out. -/
theorem mem_itemsToNodes {extent : Extent} {items : List (Option RawNode)} {node : Node}
    (h : node ∈ itemsToNodes text extent items) :
    (∃ item ∈ items.filterMap id, node = item.toNode text) ∨
      (none ∈ items.dropLast ∧ node = .null extent) := by
  induction items with
  | nil => exact absurd h List.not_mem_nil
  | cons item rest ih =>
    cases item with
    | some item =>
      obtain rfl | hrest := List.mem_cons.mp h
      · exact .inl ⟨item, List.mem_cons_self, rfl⟩
      · refine (ih hrest).imp ?_ (And.imp_left none_mem_dropLast_cons)
        rintro ⟨other, hother, rfl⟩
        exact ⟨other, List.mem_cons_of_mem _ hother, rfl⟩
    | none =>
      rw [itemsToNodes] at h
      split at h
      next => exact absurd h List.not_mem_nil
      next hrest =>
        obtain rfl | hmem := List.mem_cons.mp h
        · exact .inr ⟨none_mem_dropLast hrest, rfl⟩
        · exact (ih hmem).imp_right (And.imp_left none_mem_dropLast_cons)

theorem itemsToNodes_apart {extent : Extent} {items : List (Option RawNode)}
    (hgap : none ∈ items.dropLast → filler (.null extent))
    (hextent : ∀ item ∈ items.filterMap id, (item.toNode text).extent = item.span.extent)
    (hapart : (items.filterMap id).Pairwise fun a b => a.span.stop ≤ b.span.start) :
    (itemsToNodes text extent items).Pairwise fun a b =>
      (filler a ∧ a.extent = extent) ∨ (filler b ∧ b.extent = extent) ∨
        a.extent.stop ≤ b.extent.offset := by
  induction items with
  | nil => exact .nil
  | cons item rest ih =>
    have hrestgap := fun h => hgap (none_mem_dropLast_cons h)
    cases item with
    | some item =>
      obtain ⟨hfirst, hlater⟩ := List.forall_mem_cons.mp hextent
      obtain ⟨hbefore, hrest⟩ := List.pairwise_cons.mp hapart
      refine .cons (fun node hnode => .inr ?_) (ih hrestgap hlater hrest)
      obtain ⟨other, hother, rfl⟩ | ⟨hmem, rfl⟩ := mem_itemsToNodes text hnode
      · right
        rw [hfirst, hlater other hother, Span.extent_stop]
        exact hbefore other hother
      · exact .inl ⟨hrestgap hmem, rfl⟩
    | none =>
      rw [itemsToNodes]
      split
      next => exact .nil
      next hrest =>
        have hhere : filler (.null extent) := hgap (none_mem_dropLast hrest)
        exact .cons (fun node _ => .inl ⟨hhere, rfl⟩) (ih hrestgap hextent hapart)

theorem entriesToProperties_eq (entries : List RawEntry) :
    (entriesToProperties text entries).map Node.property
      = (entries.map RawNode.entry).map (·.toNode text) := by
  induction entries with
  | nil => rfl
  | cons e rest ih =>
    rw [entriesToProperties, List.map_cons, ih, List.map_cons, List.map_cons, RawNode.toNode]

theorem Extent.inside_of_span {a b : Span} (h : b.start ≤ a.start ∧ a.stop ≤ b.stop) :
    a.extent.Inside b.extent := by
  rw [Inside, Span.extent_stop, Span.extent_stop]
  exact h

/-- The node of a raw node is layers and has its span. -/
def RawNode.BecomesLayers (filler : Node → Prop) (raw : RawNode) : Prop :=
  (raw.toNode text).IsLayered filler ∧ (raw.toNode text).extent = raw.span.extent

variable {text} {span : Span}

theorem array_layered {items : List (Option RawNode)}
    (hordered : (RawNode.sequence span items).IsOrdered)
    (hitems : ∀ item ∈ items.filterMap id, item.BecomesLayers text filler)
    (hgap : none ∈ items.dropLast → filler (.null span.extent)) :
    (Node.array span.extent (itemsToNodes text span.extent items)).IsLayered filler := by
  have hforward := Span.extent_forward hordered.forward
  refine .of_children ⟨hforward, fun child hchild => ?_, ?_⟩ fun child hchild => ?_
  · obtain ⟨item, hitem, rfl⟩ | ⟨-, rfl⟩ := mem_itemsToNodes text hchild
    · rw [(hitems item hitem).2]
      exact Extent.inside_of_span (hordered.inside item hitem)
    · exact ⟨Int.le_refl _, Int.le_refl _⟩
  · exact itemsToNodes_apart text hgap (fun item hitem => (hitems item hitem).2) hordered.apart
  · obtain ⟨item, hitem, rfl⟩ | ⟨-, rfl⟩ := mem_itemsToNodes text hchild
    · exact (hitems item hitem).1
    · exact Node.isLayered_leaf rfl hforward

theorem object_layered {entries : List RawEntry} (hordered : (RawNode.map span entries).IsOrdered)
    (hentries : ∀ e ∈ entries.map RawNode.entry, e.BecomesLayers text filler) :
    (Node.object span.extent (entriesToProperties text entries)).IsLayered filler := by
  have hchildren : (Node.object span.extent (entriesToProperties text entries)).children
      = (entries.map RawNode.entry).map (·.toNode text) := entriesToProperties_eq text entries
  refine .of_children ⟨Span.extent_forward hordered.forward, ?_, ?_⟩ ?_
  · rw [hchildren]
    refine List.forall_mem_map.mpr fun e he => ?_
    rw [(hentries e he).2]
    exact Extent.inside_of_span (hordered.inside e he)
  · rw [hchildren, List.pairwise_map]
    refine hordered.apart.imp_of_mem fun {a b} ha hb hapart => .inr (.inr ?_)
    rw [(hentries a ha).2, (hentries b hb).2, Span.extent_stop]
    exact hapart
  · rw [hchildren]
    exact List.forall_mem_map.mpr fun e he => (hentries e he).1

/-- The key of a property is a leaf inside of it, before its value. -/
theorem key_layered (text : Text) (filler : Node → Prop) {key value : Option RawNode}
    (hordered : (RawNode.entry (.mk span key value)).IsOrdered)
    (hkey : ∀ k, key = some k → k.span.start ≤ k.span.stop) :
    let name := (RawEntry.mk span key value).toKey text
    name.node.IsLayered filler ∧ name.extent.Inside span.extent ∧
      ∀ v, value = some v → name.extent.stop ≤ v.span.start := by
  cases key with
  | none =>
    have hplace : (RawEntry.mk span none value).toKey text = ⟨⟨span.start, 0⟩, []⟩ := rfl
    have hforward : span.start ≤ span.stop := hordered.forward
    refine ⟨Node.isLayered_leaf rfl ?_, ?_, fun v hv => ?_⟩
    · simp only [hplace, Key.node, Node.extent, Extent.stop]
      omega
    · simp only [hplace, Extent.Inside, Span.extent_stop]
      simp only [Span.extent, Extent.stop]
      omega
    · subst hv
      have hinside : span.start ≤ v.span.start := (hordered.inside v (by simp [RawNode.children,
        RawEntry.key, RawEntry.value])).1
      simp only [hplace, Extent.stop]
      omega
  | some key =>
    have hplace : ((RawEntry.mk span (some key) value).toKey text).extent = key.span.extent := rfl
    refine ⟨Node.isLayered_leaf rfl (Span.extent_forward (hkey key rfl)), ?_, fun v hv => ?_⟩
    · rw [hplace]
      exact Extent.inside_of_span (hordered.inside key (by simp [RawNode.children, RawEntry.key]))
    · subst hv
      have hapart : [key, v].Pairwise fun a b => a.span.stop ≤ b.span.start := hordered.apart
      rw [hplace, Span.extent_stop]
      simpa using hapart

theorem pair_layered {extent : Extent} {key : Key} {value : Node}
    (hforward : extent.offset ≤ extent.stop) (hkey : key.node.IsLayered filler)
    (hkeyInside : key.extent.Inside extent) (hvalue : value.IsLayered filler)
    (hvalueInside : value.extent.Inside extent)
    (hapart : (filler value ∧ value.extent = extent) ∨ key.extent.stop ≤ value.extent.offset) :
    (Node.property (.mk extent key value)).IsLayered filler := by
  have hchildren : (Node.property (.mk extent key value)).children = [key.node, value] := rfl
  refine .of_children ⟨hforward, ?_, ?_⟩ ?_
  · rw [hchildren]
    simpa using ⟨hkeyInside, hvalueInside⟩
  · rw [hchildren]
    simpa using .inr hapart
  · rw [hchildren]
    simpa using ⟨hkey, hvalue⟩

theorem property_layered {key value : Option RawNode}
    (hordered : (RawNode.entry (.mk span key value)).IsOrdered)
    (hextent : (RawEntry.mk span key value).propertyExtent = span.extent)
    (hkey : ∀ k, key = some k → k.span.start ≤ k.span.stop)
    (hvalue : ∀ v, value = some v → v.BecomesLayers text filler)
    (hgap : value = none → filler (.null span.extent)) :
    (Node.property ((RawEntry.mk span key value).toProperty text)).IsLayered filler := by
  have hforward : span.extent.offset ≤ span.extent.stop := Span.extent_forward hordered.forward
  obtain ⟨hname, hinside, hbefore⟩ := key_layered text filler hordered hkey
  cases value with
  | none =>
    rw [RawEntry.toProperty, hextent]
    exact pair_layered hforward hname hinside (Node.isLayered_leaf rfl hforward)
      ⟨Int.le_refl _, Int.le_refl _⟩ (.inl ⟨hgap rfl, rfl⟩)
  | some value =>
    obtain ⟨hlayered, hplace⟩ := hvalue value rfl
    have hmem : value ∈ (RawNode.entry (.mk span key (some value))).children := by
      simp [RawNode.children, RawEntry.value]
    rw [RawEntry.toProperty, hextent]
    refine pair_layered hforward hname hinside hlayered ?_ (.inr ?_)
    · rw [hplace]
      exact Extent.inside_of_span (hordered.inside value hmem)
    · rw [hplace]
      exact hbefore value rfl

/-- A laminar raw tree without references becomes layers, in which the nulls for what it leaves out
are fillers. -/
theorem RawNode.toNode_layered (text : Text) (raw : RawNode) (hlaminar : raw.IsLaminar)
    (hfree : raw.HasNoReference) (hfills : ∀ node, raw.Fills node → filler node) :
    raw.BecomesLayers text filler := by
  have hordered := hlaminar raw .refl
  have hbelow : ∀ child ∈ raw.children, child.BecomesLayers text filler := by
    intro child hchild
    refine child.toNode_layered text (fun node h => hlaminar node (.head hchild h))
      (fun node h => hfree node (.head hchild h)) ?_
    rintro node ⟨gap, hgap, hout, rfl⟩
    exact hfills _ ⟨gap, .head hchild hgap, hout, rfl⟩
  have hextent := RawNode.extent_toNode text hordered (hfree raw .refl)
  have hforward : (raw.toNode text).extent.offset ≤ (raw.toNode text).extent.stop := by
    rw [hextent]
    exact Span.extent_forward hordered.forward
  refine ⟨?_, hextent⟩
  cases raw with
  | scalar span value plain tag =>
    refine Node.isLayered_leaf ?_ hforward
    rw [toNode]
    cases Scalar.classify value plain tag <;> rfl
  | inclusion span value => exact Node.isLayered_leaf rfl hforward
  | reference span name target => exact absurd rfl (hfree _ .refl span name target)
  | sequence span items =>
    exact array_layered hordered hbelow fun hgap => hfills _ ⟨_, .refl, hgap, rfl⟩
  | map span entries => exact object_layered hordered hbelow
  | entry e =>
    obtain ⟨span, key, value⟩ := e
    refine property_layered hordered ?_ ?_ ?_ fun hgap => hfills _ ⟨_, .refl, hgap, rfl⟩
    · cases value <;> exact hextent
    · rintro k rfl
      have hk : k ∈ (RawNode.entry (.mk span (some k) value)).children := by
        simp [children, RawEntry.key]
      exact (hlaminar k (.single hk)).forward
    · rintro v rfl
      exact hbelow v (by simp [children, RawEntry.value])
termination_by sizeOf raw
decreasing_by exact RawNode.sizeOf_lt_of_mem_children hchild

end Built

/-! ### the search -/

/-- In the tree of a laminar raw tree without references, what is found for an offset is a null for
something that was left out, or nothing that covers the offset is further inside.  On a shared
bound the later node is found, also if an empty one ends there. -/
theorem find?_innermost_or_filler (text : Text) {raw : RawNode} {n : Node} {offset : Int}
    {rightBound : Bool} (hlaminar : raw.IsLaminar) (hfree : raw.HasNoReference)
    (hfind : (raw.toNode text).find? offset rightBound = some n) :
    raw.Fills n ∨
    ∀ m, Relation.ReflTransGen (fun n m => m ∈ n.children) (raw.toNode text) m →
      m.extent.covers offset rightBound = true → m.extent.Inside n.extent →
      m.extent = n.extent ∨
        (rightBound = true ∧ n.extent.offset = offset ∧ m.extent = ⟨offset, 0⟩) := by
  have hleaf : ∀ a, raw.Fills a → a.children = [] := by
    rintro a ⟨gap, -, -, rfl⟩
    rfl
  obtain ⟨hlayered, -⟩ := raw.toNode_layered text hlaminar hfree fun _ h => h
  by_cases hfills : raw.Fills n
  · exact .inl hfills
  · refine .inr fun m hm hcovers hinside => ?_
    by_cases hsame : m.extent = n.extent
    · exact .inl hsame
    · exact .inr ((hlayered.innermost hleaf hfind hm hcovers hinside hsame).resolve_left hfills)

/-- What holds of a raw node and of all below its children holds of all below it. -/
theorem RawNode.forall_below {P : RawNode → Prop} {root : RawNode} (hroot : P root)
    (hchildren : ∀ child ∈ root.children, ∀ node,
      Relation.ReflTransGen (fun n m => m ∈ n.children) child node → P node) :
    ∀ node, Relation.ReflTransGen (fun n m => m ∈ n.children) root node → P node := by
  intro node hnode
  obtain rfl | ⟨child, hchild, hbelow⟩ := Relation.ReflTransGen.cases_head hnode
  · exact hroot
  · exact hchildren child hchild node hbelow

/-- A leaf is laminar and has no reference, if it is none. -/
theorem RawNode.below_leaf {leaf : RawNode} (hforward : leaf.span.start ≤ leaf.span.stop)
    (hleaf : leaf.children = []) (hentry : ∀ e, leaf ≠ .entry e)
    (href : ∀ span name target, leaf ≠ .reference span name target) :
    ∀ node, Relation.ReflTransGen (fun n m => m ∈ n.children) leaf node →
      node.IsOrdered ∧ ∀ span name target, node ≠ .reference span name target := by
  refine forall_below ⟨⟨hforward, ?_, ?_, fun e _ he => absurd he (hentry e)⟩, href⟩ ?_
  · simp [hleaf]
  · simp [hleaf]
  · simp [hleaf]

/-- In the lines `- 1`, `-` and `- 2`, the number behind the gap is found. -/
theorem find?_innermost_behind_gap :
    let raw : RawNode := .sequence ⟨0, 10⟩
      [some (.scalar ⟨2, 3⟩ [.char '1'] true none), none,
        some (.scalar ⟨8, 9⟩ [.char '2'] true none)]
    let two : Node := .number ⟨8, 1⟩ (.int 2)
    raw.IsLaminar ∧ raw.HasNoReference ∧ (raw.toNode []).find? 8 false = some two ∧
    (raw.Fills two ∨
      ∀ m, Relation.ReflTransGen (fun n m => m ∈ n.children) (raw.toNode []) m →
        m.extent.covers 8 false = true → m.extent.Inside two.extent →
        m.extent = two.extent ∨ (false = true ∧ two.extent.offset = 8 ∧ m.extent = ⟨8, 0⟩)) := by
  intro raw two
  have hbelow : ∀ node, Relation.ReflTransGen (fun n m => m ∈ n.children) raw node →
      node.IsOrdered ∧ ∀ span name target, node ≠ .reference span name target := by
    refine RawNode.forall_below ⟨⟨by decide, by decide, by decide, nofun⟩, nofun⟩ ?_
    refine List.forall_mem_cons.mpr ⟨?_, List.forall_mem_singleton.mpr ?_⟩
    · exact RawNode.below_leaf (by decide) rfl nofun nofun
    · exact RawNode.below_leaf (by decide) rfl nofun nofun
  have hlaminar : raw.IsLaminar := fun node h => (hbelow node h).1
  have hfree : raw.HasNoReference := fun node h => (hbelow node h).2
  have hfind : (raw.toNode []).find? 8 false = some two := rfl
  exact ⟨hlaminar, hfree, hfind, find?_innermost_or_filler [] hlaminar hfree hfind⟩

/-- In `a:`, what is found at the place of the key is the null for the value that was left out, not
the key, which lies further inside. -/
theorem filler_hides_key :
    let raw : RawNode := .map ⟨0, 3⟩ [.mk ⟨0, 3⟩ (some (.scalar ⟨0, 1⟩ [.char 'a'] true none)) none]
    let key : Node := .string ⟨0, 1⟩ [.char 'a']
    raw.IsLaminar ∧ raw.HasNoReference ∧
    (raw.toNode []).find? 0 false = some (.null ⟨0, 3⟩) ∧
    Relation.ReflTransGen (fun n m => m ∈ n.children) (raw.toNode []) key ∧
    key.extent.covers 0 false = true ∧ key.extent.Inside ⟨0, 3⟩ ∧ key.extent ≠ ⟨0, 3⟩ := by
  intro raw key
  have hbelow : ∀ node, Relation.ReflTransGen (fun n m => m ∈ n.children) raw node →
      node.IsOrdered ∧ ∀ span name target, node ≠ .reference span name target := by
    refine RawNode.forall_below ⟨⟨by decide, by decide, by decide, nofun⟩, nofun⟩ ?_
    refine List.forall_mem_singleton.mpr ?_
    refine RawNode.forall_below ⟨⟨by decide, by decide, by decide, ?_⟩, nofun⟩ ?_
    · rintro e k ⟨⟩ ⟨⟩
      rfl
    · exact List.forall_mem_singleton.mpr (RawNode.below_leaf (by decide) rfl nofun nofun)
  refine ⟨fun node h => (hbelow node h).1, fun node h => (hbelow node h).2, rfl, ?_, rfl, ?_, ?_⟩
  · exact .tail (.single List.mem_cons_self) List.mem_cons_self
  · exact ⟨by decide, by decide⟩
  · decide

end YamlSpan
