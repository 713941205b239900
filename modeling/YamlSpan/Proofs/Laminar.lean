import Mathlib.Logic.Relation
import YamlSpan.Proofs.Interruption
import YamlSpan.Proofs.Marker

/-!
# Spans that do not cross

When the events of a document go forward in the text, the spans of its tree form layers: a node
holds the nodes below it, and what stands side by side comes one behind the other.  One relation
says both.  `InOrder lo hi spans` is a chain of spans from `lo` up to `hi`; a node is well placed
if the spans right below it are such a chain between its own bounds.

* `InOrder`                   spans one behind the other between two bounds
* `RawNode.IsLaminar`         every node below a root holds its children, in order
* `EventTree.meaning_fits`    a tree whose events are in order means such a node
* `composed_spans_laminar`    so documents are laminar, whole or cut short

A failure closes what is open behind all that was read, so a document that is cut short is the
meaning of a tree whose events are in order too.
-/

namespace YamlSpan

/-! ### spans one behind the other -/

/-- Spans one behind the other between two bounds, none of which stops before it starts. -/
def InOrder : (lo hi : Int) → List Span → Prop
  | lo, hi, [] => lo ≤ hi
  | lo, hi, s :: rest => lo ≤ s.start ∧ s.start ≤ s.stop ∧ InOrder s.stop hi rest

instance decidableInOrder : (lo hi : Int) → (spans : List Span) → Decidable (InOrder lo hi spans)
  | lo, hi, [] => inferInstanceAs (Decidable (lo ≤ hi))
  | _, hi, s :: rest =>
    have := decidableInOrder s.stop hi rest
    inferInstanceAs (Decidable (_ ∧ _ ∧ InOrder s.stop hi rest))

/-- A span between two bounds. -/
def Span.Within (lo hi : Int) (s : Span) : Prop := lo ≤ s.start ∧ s.start ≤ s.stop ∧ s.stop ≤ hi

namespace InOrder

variable {lo hi : Int} {spans : List Span}

theorem le (h : InOrder lo hi spans) : lo ≤ hi := by
  induction spans generalizing lo with
  | nil => exact h
  | cons s rest ih =>
    obtain ⟨hlo, hs, hrest⟩ := h
    have := ih hrest
    omega

theorem mono_left {lo' : Int} (h : InOrder lo hi spans) (hle : lo' ≤ lo) :
    InOrder lo' hi spans := by
  cases spans with
  | nil => exact Int.le_trans hle h
  | cons s rest => exact ⟨Int.le_trans hle h.1, h.2⟩

theorem mono_right {hi' : Int} (h : InOrder lo hi spans) (hle : hi ≤ hi') :
    InOrder lo hi' spans := by
  induction spans generalizing lo with
  | nil => exact Int.le_trans h hle
  | cons s rest ih => exact ⟨h.1, h.2.1, ih h.2.2⟩

theorem append {mid : Int} {a b : List Span} (ha : InOrder lo mid a) (hb : InOrder mid hi b) :
    InOrder lo hi (a ++ b) := by
  induction a generalizing lo with
  | nil => exact hb.mono_left ha
  | cons s rest ih => exact ⟨ha.1, ha.2.1, ih ha.2.2⟩

theorem split {a b : List Span} (h : InOrder lo hi (a ++ b)) :
    ∃ mid, InOrder lo mid a ∧ InOrder mid hi b := by
  induction a generalizing lo with
  | nil => exact ⟨lo, Int.le_refl lo, h⟩
  | cons s rest ih =>
    obtain ⟨mid, hrest, hb⟩ := ih h.2.2
    exact ⟨mid, ⟨h.1, h.2.1, hrest⟩, hb⟩

theorem within (h : InOrder lo hi spans) : ∀ s ∈ spans, s.Within lo hi := by
  induction spans generalizing lo with
  | nil => simp
  | cons s rest ih =>
    obtain ⟨hlo, hs, hrest⟩ := h
    refine List.forall_mem_cons.mpr ⟨⟨hlo, hs, hrest.le⟩, fun t ht => ?_⟩
    obtain ⟨hstart, hle, hstop⟩ := ih hrest t ht
    exact ⟨by omega, hle, hstop⟩

theorem pairwise (h : InOrder lo hi spans) : spans.Pairwise fun a b => a.stop ≤ b.start := by
  induction spans generalizing lo with
  | nil => exact .nil
  | cons s rest ih => exact .cons (fun t ht => (h.2.2.within t ht).1) (ih h.2.2)

theorem restrict {hi' : Int} (h : InOrder lo hi spans) (hstop : ∀ s ∈ spans, s.stop ≤ hi')
    (hle : lo ≤ hi') : InOrder lo hi' spans := by
  induction spans generalizing lo with
  | nil => exact hle
  | cons s rest ih =>
    obtain ⟨hs, hrest⟩ := List.forall_mem_cons.mp hstop
    exact ⟨h.1, h.2.1, ih h.2.2 hrest hs⟩

/-- Spans with no width, all at one place. -/
theorem of_place {place : Int} (h : ∀ s ∈ spans, s = ⟨place, place⟩) :
    InOrder place place spans := by
  induction spans with
  | nil => exact Int.le_refl place
  | cons s rest ih =>
    obtain ⟨rfl, hrest⟩ := List.forall_mem_cons.mp h
    exact ⟨Int.le_refl _, Int.le_refl _, ih hrest⟩

end InOrder

/-! ### laminar trees -/

/-- The nodes right below a node: items, entries, keys and values.  What a reference stands for is
not below it. -/
def RawNode.children : RawNode → List RawNode
  | .scalar .. => []
  | .inclusion .. => []
  | .reference .. => []
  | .sequence _ items => items.filterMap id
  | .map _ entries => entries.map .entry
  | .entry e => e.key.toList ++ e.value.toList

/-- A node does not stop before it starts and holds its children, which come one behind the other;
an entry starts with its key. -/
structure RawNode.IsOrdered (node : RawNode) : Prop where
  forward : node.span.start ≤ node.span.stop
  inside : ∀ child ∈ node.children,
    node.span.start ≤ child.span.start ∧ child.span.stop ≤ node.span.stop
  apart : node.children.Pairwise fun a b => a.span.stop ≤ b.span.start
  atKey : ∀ e key, node = .entry e → e.key = some key → e.span.start = key.span.start

/-- Every node below a root is ordered, and so is the root. -/
def RawNode.IsLaminar (root : RawNode) : Prop :=
  ∀ node, Relation.ReflTransGen (fun n m => m ∈ n.children) root node → node.IsOrdered

/-- A document whose root is laminar and inside of it. -/
def RawDocument.IsLaminar (d : RawDocument) : Prop :=
  ∀ root, d.root = some root →
    root.IsLaminar ∧ d.span.start ≤ root.span.start ∧ root.span.stop ≤ d.span.stop

/-- Nodes one behind the other, with nothing crossing below them. -/
structure NodesFit (lo hi : Int) (nodes : List RawNode) : Prop where
  order : InOrder lo hi (nodes.map RawNode.span)
  laminar : ∀ node ∈ nodes, node.IsLaminar

theorem NodesFit.append {lo mid hi : Int} {a b : List RawNode} (ha : NodesFit lo mid a)
    (hb : NodesFit mid hi b) : NodesFit lo hi (a ++ b) := by
  refine ⟨?_, List.forall_mem_append.mpr ⟨ha.laminar, hb.laminar⟩⟩
  rw [List.map_append]
  exact ha.order.append hb.order

theorem RawNode.IsLaminar.of_children {node : RawNode} {lo hi : Int} (hspan : node.span = ⟨lo, hi⟩)
    (h : NodesFit lo hi node.children)
    (hkey : ∀ e key, node = .entry e → e.key = some key → e.span.start = key.span.start) :
    node.IsLaminar := by
  intro below hbelow
  rcases Relation.ReflTransGen.cases_head hbelow with rfl | ⟨child, hchild, hrest⟩
  · refine ⟨?_, fun child hchild => ?_, List.pairwise_map.mp h.order.pairwise, hkey⟩
    · rw [hspan]
      exact h.order.le
    · rw [hspan]
      have hwithin := h.order.within _ (List.mem_map_of_mem hchild)
      exact ⟨hwithin.1, hwithin.2.2⟩
  · exact h.laminar child hchild below hrest

/-! ### meanings between two bounds -/

/-- A node in its place between two bounds, with nothing crossing below it. -/
structure Placed.Fits (lo hi : Int) (p : Placed) : Prop where
  place : p.span.Within lo hi
  node : ∀ node ∈ p.node, node.span = p.span ∧ node.IsLaminar

theorem Placed.Fits.nodes {lo hi : Int} {p : Placed} (h : p.Fits lo hi) :
    NodesFit lo hi p.node.toList := by
  obtain ⟨⟨hlo, hle, hhi⟩, hnode⟩ := h
  cases hp : p.node with
  | none => exact ⟨by show lo ≤ hi; omega, by simp⟩
  | some node =>
    obtain ⟨hspan, hlaminar⟩ := hnode node hp
    refine ⟨?_, ?_⟩
    · show lo ≤ node.span.start ∧ node.span.start ≤ node.span.stop ∧ node.span.stop ≤ hi
      rw [hspan]
      exact ⟨hlo, hle, hhi⟩
    · intro n hn
      rw [Option.toList_some, List.mem_singleton] at hn
      rw [hn]
      exact hlaminar

theorem Placed.Fits.keyStop_le {lo hi : Int} {p : Placed} (h : p.Fits lo hi) :
    p.span.start ≤ p.keyStop ∧ p.keyStop ≤ p.span.stop := by
  have hle := h.place.2.1
  rw [Placed.keyStop_eq]
  cases hp : p.node with
  | none => exact ⟨Int.le_refl _, hle⟩
  | some node =>
    rw [Option.elim_some, (h.node node hp).1]
    exact ⟨hle, Int.le_refl _⟩

theorem pairEntry_fits {lo mid hi : Int} {key value : Placed} (hkey : key.Fits lo mid)
    (hvalue : value.Fits mid hi) : NodesFit lo hi [.entry (pairEntry key value)] := by
  have hstop := hkey.keyStop_le
  obtain ⟨hklo, hkle, hkhi⟩ := hkey.place
  obtain ⟨hvlo, hvle, hvhi⟩ := hvalue.place
  have hmax : max value.span.stop key.keyStop = value.span.stop := by omega
  have hspan : (RawNode.entry (pairEntry key value)).span = ⟨key.span.start, value.span.stop⟩ := by
    show (⟨key.span.start, max value.span.stop key.keyStop⟩ : Span) = _
    rw [hmax]
  have hbelow : NodesFit key.span.start value.span.stop
      (RawNode.entry (pairEntry key value)).children := by
    have hk : key.Fits key.span.start mid := ⟨⟨Int.le_refl _, hkle, hkhi⟩, hkey.node⟩
    have hv : value.Fits mid value.span.stop := ⟨⟨hvlo, hvle, Int.le_refl _⟩, hvalue.node⟩
    exact hk.nodes.append hv.nodes
  refine ⟨?_, ?_⟩
  · rw [List.map_singleton, hspan]
    exact ⟨hklo, hbelow.order.le, hvhi⟩
  · intro node hnode
    rw [List.mem_singleton] at hnode
    subst hnode
    refine .of_children hspan hbelow ?_
    intro e k he hk
    cases he
    show key.span.start = k.span.start
    rw [(hkey.node k hk).1]

/-- Reports between two bounds. -/
def ReportsFit (lo hi : Int) (reports : List RawDiagnostic) : Prop :=
  ∀ r ∈ reports, r.span.Within lo hi

theorem ReportsFit.mono {lo hi lo' hi' : Int} {reports : List RawDiagnostic}
    (h : ReportsFit lo hi reports) (hlo : lo' ≤ lo) (hhi : hi ≤ hi') :
    ReportsFit lo' hi' reports := by
  intro r hr
  obtain ⟨hstart, hle, hstop⟩ := h r hr
  exact ⟨by omega, hle, by omega⟩

theorem ReportsFit.append {lo hi : Int} {a b : List RawDiagnostic} (ha : ReportsFit lo hi a)
    (hb : ReportsFit lo hi b) : ReportsFit lo hi (a ++ b) :=
  List.forall_mem_append.mpr ⟨ha, hb⟩

theorem tagReports_fit (src : Source) (tag : Option String) (kind : TagKind) {lo hi : Int}
    {span : Span} (h : span.Within lo hi) : ReportsFit lo hi (tagReports src tag kind span) := by
  intro r hr
  obtain ⟨reason, _, rfl⟩ := List.mem_map.mp hr
  exact h

theorem anchorReports_fit (anchors : List (String × RawNode)) (anchor : Option String)
    {lo hi : Int} {span : Span} (h : span.Within lo hi) :
    ReportsFit lo hi (anchorReports anchors anchor span) := by
  intro r hr
  unfold anchorReports at hr
  split at hr
  · cases hr
  · split at hr
    · rw [List.mem_singleton.mp hr]
      exact h
    · cases hr

theorem referenceReports_fit (anchors : List (String × RawNode)) (name : String) {lo hi : Int}
    {span : Span} (h : span.Within lo hi) :
    ReportsFit lo hi (referenceReports anchors span name) := by
  intro r hr
  unfold referenceReports at hr
  split at hr
  · rw [List.mem_singleton.mp hr]
    exact h
  · cases hr

theorem repeatReports_fit (text : Text) (earlier : List RawEntry) {lo hi : Int} {key : Placed}
    (h : key.Fits lo hi) : ReportsFit lo hi (repeatReports text earlier key) := by
  intro r hr
  unfold repeatReports at hr
  split at hr
  · rw [List.mem_singleton.mp hr]
    obtain ⟨hlo, hle, hhi⟩ := h.place
    obtain ⟨hstart, hstop⟩ := h.keyStop_le
    exact ⟨hlo, hstart, Int.le_trans hstop hhi⟩
  · cases hr

theorem Span.Within.shift {lo hi : Int} {s : Span} (h : s.Within lo hi) (offset : Int) :
    (s.shift offset).Within (offset + lo) (offset + hi) := by
  obtain ⟨hlo, hle, hhi⟩ := h
  show offset + lo ≤ offset + s.start ∧ offset + s.start ≤ offset + s.stop
    ∧ offset + s.stop ≤ offset + hi
  omega

theorem finished_fits {lo hi : Int} (node : RawNode) (hplace : node.span.Within lo hi)
    (hlaminar : node.IsLaminar) (anchors : List (String × RawNode)) (anchor : Option String)
    {mark : Span} (hmark : mark.Within lo hi) {reports : List RawDiagnostic}
    (hreports : ReportsFit lo hi reports) :
    (finished anchors anchor node mark reports).value.Fits lo hi
      ∧ ReportsFit lo hi (finished anchors anchor node mark reports).reports := by
  refine ⟨⟨hplace, ?_⟩, hreports.append (anchorReports_fit anchors anchor hmark)⟩
  intro n hn
  cases hn
  exact ⟨rfl, hlaminar⟩

/-- A node with nothing below it. -/
theorem RawNode.isLaminar_leaf (node : RawNode) {lo hi : Int} (h : node.span.Within lo hi)
    (hleaf : node.children = []) (hentry : ∀ e, node ≠ .entry e) : node.IsLaminar := by
  refine .of_children (show node.span = ⟨node.span.start, node.span.stop⟩ from rfl) ?_
    fun e _ he _ => absurd he (hentry e)
  rw [hleaf]
  exact ⟨h.2.1, by simp⟩

theorem scalarMeaning_fits (src : Source) {lo hi : Int} {span : Span} (h : span.Within lo hi)
    (value : Text) (plain : Bool) (anchor tag : Option String)
    (anchors : List (String × RawNode)) :
    (scalarMeaning src span value plain anchor tag anchors).value.Fits lo hi
      ∧ ReportsFit lo hi (scalarMeaning src span value plain anchor tag anchors).reports := by
  unfold scalarMeaning
  split
  · exact ⟨⟨h, by simp⟩, by simp [ReportsFit]⟩
  · split
    · have hlaminar := (RawNode.inclusion span value).isLaminar_leaf h rfl nofun
      exact finished_fits _ h hlaminar anchors anchor h (by simp [ReportsFit])
    · have hlaminar := (RawNode.scalar span value plain tag).isLaminar_leaf h rfl nofun
      exact finished_fits _ h hlaminar anchors anchor h (tagReports_fit src tag _ h)

theorem referenceMeaning_fits {lo hi : Int} {span : Span} (h : span.Within lo hi) (name : String)
    (anchors : List (String × RawNode)) :
    (referenceMeaning span name anchors).value.Fits lo hi
      ∧ ReportsFit lo hi (referenceMeaning span name anchors).reports := by
  refine ⟨⟨h, ?_⟩, referenceReports_fit anchors name h⟩
  intro node hnode
  cases hnode
  exact ⟨rfl, RawNode.isLaminar_leaf _ h rfl nofun⟩

/-- The spans of events. -/
abbrev eventSpans (events : List Event) : List Span := events.map Event.span

/-- What a collection adds around what is below it.  It starts with its first event and stops with
its last one, and what is below it comes between the two. -/
theorem collection_fits (src : Source) (base : Int) {lo hi : Int} {start stop : Span}
    {inner : List Event} (h : InOrder lo hi (start :: (eventSpans inner ++ [stop]))) :
    ∃ mid, InOrder start.stop mid (eventSpans inner)
      ∧ ∀ (node : RawNode) (anchors : List (String × RawNode)) (anchor tag : Option String)
        (kind : TagKind) (reports : List RawDiagnostic),
        node.span = collectionSpan base start stop → (∀ e, node ≠ .entry e) →
        NodesFit (base + start.stop) (base + mid) node.children →
        ReportsFit (base + start.stop) (base + mid) reports →
        let m := finished anchors anchor node (start.shift base)
          (tagReports src tag kind (start.shift base) ++ reports)
        m.value.Fits (base + lo) (base + hi) ∧ ReportsFit (base + lo) (base + hi) m.reports := by
  obtain ⟨hlo, hle, hrest⟩ := h
  obtain ⟨mid, hinner, hmid, hstop, hhi : stop.stop ≤ hi⟩ := hrest.split
  have hsm := hinner.le
  refine ⟨mid, hinner, fun node anchors anchor tag kind reports hspan hentry hnodes hreports => ?_⟩
  have hnode : node.span = ⟨base + start.start, base + stop.stop⟩ := by
    rw [hspan, collectionSpan]
    rw [show max (base + stop.stop) (base + start.start) = base + stop.stop by omega]
  have hmark : (start.shift base).Within (base + lo) (base + hi) :=
    Span.Within.shift ⟨hlo, hle, by omega⟩ base
  refine finished_fits node ?_ ?_ anchors anchor hmark ?_
  · rw [hnode]
    exact ⟨Int.add_le_add_left hlo base, by show base + start.start ≤ base + stop.stop; omega,
      Int.add_le_add_left hhi base⟩
  · refine .of_children hnode ⟨?_, hnodes.laminar⟩ fun e _ he _ => absurd he (hentry e)
    exact (hnodes.order.mono_left (by omega)).mono_right (by omega)
  · exact (tagReports_fit src tag kind hmark).append (hreports.mono (by omega) (by omega))

namespace EventTree

variable (src : Source) (base : Int)

mutual

/-- A tree whose events are in order means a laminar node between the same bounds. -/
theorem meaning_fits : ∀ (tree : EventTree) {lo hi : Int} (anchors : List (String × RawNode)),
    InOrder lo hi (eventSpans tree.events) →
    (tree.meaning src base anchors).value.Fits (base + lo) (base + hi)
      ∧ ReportsFit (base + lo) (base + hi) (tree.meaning src base anchors).reports
  | .scalar span value plain anchor tag, lo, hi, anchors, h =>
    scalarMeaning_fits src (Span.Within.shift h base) value plain anchor tag anchors
  | .reference span name, lo, hi, anchors, h =>
    referenceMeaning_fits (Span.Within.shift h base) name anchors
  | .sequence start anchor tag items stop, lo, hi, anchors, h => by
    have hspans : InOrder lo hi (start :: (eventSpans (itemEvents items) ++ [stop])) := by
      simpa [events, eventSpans, Event.span] using h
    obtain ⟨mid, hinner, hcollection⟩ := collection_fits src base hspans
    obtain ⟨hitems, hreports⟩ := itemsMeaning_fits items anchors hinner
    exact hcollection (.sequence _ _) _ _ _ _ _ rfl nofun hitems hreports
  | .mapping start anchor tag pairs stop, lo, hi, anchors, h => by
    have hspans : InOrder lo hi (start :: (eventSpans (pairEvents pairs) ++ [stop])) := by
      simpa [events, eventSpans, Event.span] using h
    obtain ⟨mid, hinner, hcollection⟩ := collection_fits src base hspans
    obtain ⟨hentries, hreports⟩ := pairsMeaning_fits pairs [] anchors hinner
    exact hcollection (.map _ _) _ _ _ _ _ rfl nofun hentries hreports

theorem itemsMeaning_fits : ∀ (items : List EventTree) {lo hi : Int}
    (anchors : List (String × RawNode)), InOrder lo hi (eventSpans (itemEvents items)) →
    NodesFit (base + lo) (base + hi) ((itemsMeaning src base items anchors).value.filterMap id)
      ∧ ReportsFit (base + lo) (base + hi) (itemsMeaning src base items anchors).reports
  | [], lo, hi, anchors, h => by
    have hle : lo ≤ hi := h
    exact ⟨⟨by show base + lo ≤ base + hi; omega, by simp [itemsMeaning]⟩,
      by simp [itemsMeaning, ReportsFit]⟩
  | item :: rest, lo, hi, anchors, h => by
    rw [itemEvents, eventSpans, List.map_append] at h
    obtain ⟨mid, hfirst, hothers⟩ := h.split
    obtain ⟨hnode, hreports⟩ := meaning_fits item anchors hfirst
    obtain ⟨hnodes, hmore⟩ := itemsMeaning_fits rest (item.meaning src base anchors).anchors hothers
    have hlo := hfirst.le
    have hhi := hothers.le
    refine ⟨?_, (hreports.mono (by omega) (by omega)).append (hmore.mono (by omega) (by omega))⟩
    have hall := hnode.nodes.append hnodes
    rw [itemsMeaning]
    cases hp : (item.meaning src base anchors).value.node with
    | none =>
      rw [hp] at hall
      exact hall
    | some node =>
      rw [hp] at hall
      exact hall

theorem pairsMeaning_fits : ∀ (pairs : List (EventTree × EventTree)) {lo hi : Int}
    (earlier : List RawEntry) (anchors : List (String × RawNode)),
    InOrder lo hi (eventSpans (pairEvents pairs)) →
    NodesFit (base + lo) (base + hi)
        ((pairsMeaning src base pairs earlier anchors).value.map .entry)
      ∧ ReportsFit (base + lo) (base + hi) (pairsMeaning src base pairs earlier anchors).reports
  | [], lo, hi, earlier, anchors, h => by
    have hle : lo ≤ hi := h
    exact ⟨⟨by show base + lo ≤ base + hi; omega, by simp [pairsMeaning]⟩,
      by simp [pairsMeaning, ReportsFit]⟩
  | (key, value) :: rest, lo, hi, earlier, anchors, h => by
    rw [pairEvents, eventSpans, List.map_append, List.map_append] at h
    obtain ⟨mid, hkey, hrest⟩ := h.split
    obtain ⟨next, hvalue, hothers⟩ := hrest.split
    obtain ⟨hk, hkreports⟩ := meaning_fits key anchors hkey
    obtain ⟨hv, hvreports⟩ := meaning_fits value (key.meaning src base anchors).anchors hvalue
    obtain ⟨hentries, hmore⟩ := pairsMeaning_fits rest
      (earlier ++ [pairEntry (key.meaning src base anchors).value
        (value.meaning src base (key.meaning src base anchors).anchors).value])
      (value.meaning src base (key.meaning src base anchors).anchors).anchors hothers
    have h1 := hkey.le
    have h2 := hvalue.le
    have h3 := hothers.le
    refine ⟨(pairEntry_fits hk hv).append hentries, ?_⟩
    have hrepeat := repeatReports_fit src.text earlier hk
    exact (hkreports.mono (by omega) (by omega)).append
      ((hvreports.mono (by omega) (by omega)).append
        ((hrepeat.mono (by omega) (by omega)).append (hmore.mono (by omega) (by omega))))

end

end EventTree

/-! ### documents -/

/-- The root of a document between two bounds, and its reports. -/
structure RawDocument.Fits (lo hi : Int) (d : RawDocument) : Prop where
  place : d.span.Within lo hi
  laminar : d.IsLaminar
  reports : ReportsFit lo hi d.diagnostics

theorem EventDocument.toRaw_fits (src : Source) (base : Int) {lo hi : Int} (d : EventDocument)
    (h : InOrder lo hi (eventSpans d.events)) :
    (d.toRaw src base).Fits (base + d.start.start) (base + d.stop.stop)
      ∧ lo ≤ d.start.start ∧ d.stop.stop ≤ hi := by
  have hspans : InOrder lo hi (d.start :: (eventSpans d.root.events ++ [d.stop])) := by
    simpa [EventDocument.events, eventSpans, Event.span] using h
  obtain ⟨hlo, hle, hrest⟩ := hspans
  obtain ⟨mid, hinner, hmid, hstop, hhi⟩ := hrest.split
  have hsm := hinner.le
  obtain ⟨hroot, hreports⟩ := d.root.meaning_fits src base [] hinner
  have hspan : (d.toRaw src base).span = ⟨base + d.start.start, base + d.stop.stop⟩ := by
    show collectionSpan base d.start d.stop = _
    rw [collectionSpan]
    rw [show max (base + d.stop.stop) (base + d.start.start) = base + d.stop.stop by omega]
  refine ⟨⟨?_, ?_, hreports.mono (by omega) (by omega)⟩, hlo, hhi⟩
  · rw [hspan]
    exact ⟨Int.le_refl _, by show base + d.start.start ≤ base + d.stop.stop; omega, Int.le_refl _⟩
  · intro root hr
    obtain ⟨hplace, hlaminar⟩ := hroot.node root hr
    obtain ⟨hstart, -, hend⟩ := hroot.place
    rw [hspan, hplace]
    exact ⟨hlaminar, by show base + d.start.start ≤ _; omega, by show _ ≤ base + d.stop.stop; omega⟩

/-! ### what is kept at a failure -/

theorem ClosesAt.span_eq {place : Int} {event : Event} (h : ClosesAt place event) :
    event.span = ⟨place, place⟩ := by
  rcases h with rfl | rfl | rfl <;> rfl

/-- What is kept has events in order up to the failure. -/
theorem Reading.kept_inOrder (r : Reading) {lo place : Int}
    (h : InOrder lo place (eventSpans r.events)) :
    ∀ tree ∈ r.kept place, InOrder lo place (eventSpans tree.events) := by
  intro tree htree
  cases r with
  | whole tree =>
    cases htree
    exact h
  | part layers =>
    obtain ⟨closing, hevents, hcloses⟩ := layerTree_events place layers
    rw [show layerTree place layers = some tree from htree, Option.elim_some] at hevents
    rw [hevents, eventSpans, List.map_append]
    refine h.append (.of_place ?_)
    exact List.forall_mem_map.mpr fun event hevent => (hcloses event hevent).span_eq

namespace Assembly

variable (src : Source)

theorem failureOffset_le (base : Int) (f : Failure) :
    failureOffset src base f ≤ src.text.length := by
  unfold failureOffset
  split <;> omega

/-- A failed document does not stop before its failure. -/
theorem failureOffset_le_resume (base : Int) (f : Failure) :
    (failureOffset src base f : Int) ≤ ((resumeAt src base f).getD src.text.length : Nat) := by
  have hlength := failureOffset_le src base f
  cases hresume : resumeAt src base f with
  | none => exact Int.ofNat_le.mpr hlength
  | some i =>
    rw [Option.getD_some]
    by_cases hpos : 0 < max (failureOffset src base f) (base + 1).toNat
    · have hle := (nextMarker_isLeast src.text hpos hresume).1.1
      omega
    · omega

theorem brokenDocument_fits (base : Int) {lo : Int} (start : Span) (r : Reading) (f : Failure)
    (h : InOrder lo (failureOffset src base f - base) (start :: eventSpans r.events)) :
    let stop := ((resumeAt src base f).getD src.text.length : Nat)
    (brokenDocument src base start r f).span = ⟨base + start.start, stop⟩
      ∧ (brokenDocument src base start r f).IsLaminar
      ∧ ReportsFit (base + start.start) stop
        (keptReports src base (r.kept (failureOffset src base f - base))) := by
  intro stop
  obtain ⟨hlo, hle, hinner⟩ := h
  have hsm := hinner.le
  have hresume := failureOffset_le_resume src base f
  have hspan : (brokenDocument src base start r f).span = ⟨base + start.start, stop⟩ := by
    show (⟨base + start.start, max (stop : Int) (base + start.start)⟩ : Span) = _
    rw [show max (stop : Int) (base + start.start) = stop by omega]
  refine ⟨hspan, ?_, ?_⟩
  · intro root hr
    obtain ⟨tree, htree, hroot⟩ := Option.bind_eq_some_iff.mp hr
    obtain ⟨hfits, -⟩ := tree.meaning_fits src base [] (r.kept_inOrder hinner tree htree)
    obtain ⟨hplace, hlaminar⟩ := hfits.node root hroot
    obtain ⟨hstart, -, hend⟩ := hfits.place
    rw [hspan, hplace]
    exact ⟨hlaminar, by show base + start.start ≤ _; omega, by show _ ≤ (stop : Int); omega⟩
  · unfold keptReports
    cases htree : r.kept (failureOffset src base f - base) with
    | none => exact fun _ h => nomatch h
    | some tree =>
      obtain ⟨-, hreports⟩ := tree.meaning_fits src base [] (r.kept_inOrder hinner tree htree)
      exact hreports.mono (by omega) (by omega)

/-- **The spans of a document do not cross.**  From any state, when the events of a document are
inside the text and in order, every node of its tree holds the items, entries, keys and values below
it, which come one behind the other, every entry starts with its key, and the document holds its
root.  That is so for the whole document, and for what is kept of it when a failure, which is not in
front of what was read, cuts it short at any event. -/
theorem composed_spans_laminar (c : Assembly) (start : Span) (tree : EventTree) :
    (∀ stop : Span,
      InOrder (-c.base) (src.text.length - c.base)
        (eventSpans (.documentStart start :: (tree.events ++ [.documentEnd stop]))) →
      ∃ (c' : Assembly) (d : RawDocument),
        (takeAll src (.documentStart start :: (tree.events ++ [.documentEnd stop]))).run c
          = .ok () c'
        ∧ c'.documents = c.documents ++ [d] ∧ d.IsLaminar)
    ∧ ∀ (read : List Event) (f : Failure), read <+: tree.events →
      InOrder (-c.base) (src.text.length - c.base) (eventSpans (.documentStart start :: read)) →
      (∀ event ∈ .documentStart start :: read,
        c.base + event.span.stop ≤ f.offset src.text.length c.base) →
      ∃ (resume : Option Nat) (c' : Assembly) (d : RawDocument),
        (takeAll src (.documentStart start :: read) >>= fun _ => breakOff src f).run c
          = .ok resume c'
        ∧ c'.documents = c.documents ++ [d] ∧ d.IsLaminar := by
  constructor
  · intro stop horder
    have hfits := (EventDocument.toRaw_fits src c.base ⟨start, tree, stop⟩ horder).1
    exact ⟨_, _, takeAll_document src c ⟨start, tree, stop⟩, rfl, hfits.laminar⟩
  · intro read f hread horder hbehind
    obtain ⟨r, rfl, -⟩ := exists_reading hread
    have hfirst : -c.base ≤ start.start ∧ start.start ≤ start.stop := ⟨horder.1, horder.2.1⟩
    have hstart : c.base + start.stop ≤ f.offset src.text.length c.base :=
      hbehind _ List.mem_cons_self
    have hoffset : (failureOffset src c.base f : Int) = f.offset src.text.length c.base := by
      refine failureOffset_eq src c.base f fun index hindex => ?_
      rw [Failure.offset, hindex] at hstart
      simp only at hstart
      omega
    have hkept : InOrder (-c.base) (failureOffset src c.base f - c.base)
        (start :: eventSpans r.events) := by
      refine horder.restrict ?_ (by omega)
      refine List.forall_mem_map.mpr fun event hevent => ?_
      have := hbehind event hevent
      omega
    obtain ⟨anchors, hrun⟩ := breakOff_reading src f c start r
    exact ⟨_, _, _, hrun, rfl, (brokenDocument_fits src c.base start r f hkept).2.1⟩

/-- A map whose key is a sequence, whole as `? [a]` with its value left out, and cut short in the
sequence. -/
theorem composed_spans_laminar_open_key :
    let src : Source := ⟨[.char '?', .char ' ', .char '[', .char 'a', .char ']'], .empty⟩
    let f := Failure.ofProblem "expected ',' or ']'" ⟨"", 4, 0, 4⟩
    let item := EventTree.scalar ⟨3, 4⟩ [.char 'a'] true none none
    let tree := EventTree.mapping ⟨0, 0⟩ none none
      [(.sequence ⟨2, 3⟩ none none [item] ⟨4, 5⟩, .leftOut 5)] ⟨5, 5⟩
    let read := .mappingStart ⟨0, 0⟩ none none :: .sequenceStart ⟨2, 3⟩ none none :: item.events
    (∃ c d, (takeAll src (.documentStart ⟨0, 0⟩ :: (tree.events ++ [.documentEnd ⟨5, 5⟩]))).run
        initial = .ok () c ∧ c.documents = [d] ∧ d.IsLaminar)
      ∧ ∃ resume c d, (takeAll src (.documentStart ⟨0, 0⟩ :: read) >>= fun _ =>
        breakOff src f).run initial = .ok resume c ∧ c.documents = [d] ∧ d.IsLaminar := by
  intro src f item tree read
  obtain ⟨hwhole, hcut⟩ := composed_spans_laminar src initial ⟨0, 0⟩ tree
  exact ⟨hwhole ⟨5, 5⟩ (by decide), hcut read f (by decide) (by decide) (by decide)⟩

end Assembly

end YamlSpan
