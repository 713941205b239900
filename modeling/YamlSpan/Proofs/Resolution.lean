import Mathlib.Logic.Relation
import YamlSpan.Proofs.Interruption

/-!
# What references stand for

The events of a document are gone through once more, each with the node that it finishes: the event
of a scalar or a reference finishes that node, the end of a collection finishes the collection.  A
reference stands for the node of the last event in front of it that finished a node with its name as
the anchor, so only what is finished can be referred to.

* `Moment`                    an event with the node that it finishes
* `lastFinished`              the last node that was finished with an anchor
* `Resolves`                  a history of moments that explains a root and its reports
* `references_resolve`        every document has such a history, whole or cut short

The history of a tree is defined along its meaning.  That it belongs to the root is said without the
meaning: its events are those that were read, its nodes are those of the root in the order in which
they are finished, and its anchors are found by matching the two ends of each collection.
-/

namespace YamlSpan

/-! ### nodes and what they lead to -/

mutual

/-- The nodes of a tree, each behind those below it. -/
def RawNode.nodes : RawNode → List RawNode
  | .scalar span value plain tag => [.scalar span value plain tag]
  | .inclusion span value => [.inclusion span value]
  | .reference span name target => [.reference span name target]
  | .sequence span items => itemNodes items ++ [.sequence span items]
  | .map span entries => entryNodes entries ++ [.map span entries]
  | .entry e => e.nodes ++ [.entry e]

def RawEntry.nodes : RawEntry → List RawNode
  | .mk _ key value => nodes? key ++ nodes? value

def nodes? : Option RawNode → List RawNode
  | none => []
  | some node => node.nodes

def itemNodes : List (Option RawNode) → List RawNode
  | [] => []
  | item :: rest => nodes? item ++ itemNodes rest

def entryNodes : List RawEntry → List RawNode
  | [] => []
  | e :: rest => e.nodes ++ entryNodes rest

end

/-- The key and the value of an entry, as far as they are there. -/
def RawEntry.parts (e : RawEntry) : List RawNode := e.key.toList ++ e.value.toList

/-- The nodes that a node leads to: items, keys, values, and what a reference stands for. -/
def RawNode.next : RawNode → List RawNode
  | .scalar .. => []
  | .inclusion .. => []
  | .reference _ _ target => target.toList
  | .sequence _ items => items.filterMap id
  | .map _ entries => entries.flatMap RawEntry.parts
  | .entry e => e.parts

theorem RawNode.mem_nodes (node : RawNode) : node ∈ node.nodes := by
  cases node <;> simp [RawNode.nodes]

theorem mem_itemNodes {items : List (Option RawNode)} {node : RawNode}
    (h : node ∈ items.filterMap id) : node ∈ itemNodes items := by
  induction items with
  | nil => cases h
  | cons item rest ih =>
    rw [itemNodes]
    cases item with
    | none => exact ih h
    | some item =>
      rcases List.mem_cons.mp h with rfl | hrest
      · exact List.mem_append_left _ node.mem_nodes
      · exact List.mem_append_right _ (ih hrest)

theorem RawEntry.mem_nodes {e : RawEntry} {node : RawNode} (h : node ∈ e.parts) :
    node ∈ e.nodes := by
  obtain ⟨span, key, value⟩ := e
  rcases List.mem_append.mp h with hkey | hvalue
  · obtain rfl : key = some node := Option.mem_toList.mp hkey
    exact List.mem_append_left _ node.mem_nodes
  · obtain rfl : value = some node := Option.mem_toList.mp hvalue
    exact List.mem_append_right _ node.mem_nodes

theorem mem_entryNodes {entries : List RawEntry} {node : RawNode}
    (h : node ∈ entries.flatMap RawEntry.parts) : node ∈ entryNodes entries := by
  induction entries with
  | nil => cases h
  | cons e rest ih =>
    rw [List.flatMap_cons] at h
    rw [entryNodes]
    rcases List.mem_append.mp h with he | hrest
    · exact List.mem_append_left _ (RawEntry.mem_nodes he)
    · exact List.mem_append_right _ (ih hrest)

theorem RawEntry.sizeOf_parts {e : RawEntry} {node : RawNode} (h : node ∈ e.parts) :
    sizeOf node < sizeOf e := by
  obtain ⟨span, key, value⟩ := e
  rcases List.mem_append.mp h with hkey | hvalue
  · cases key with
    | none => cases hkey
    | some key =>
      rw [List.mem_singleton.mp hkey]
      simp
      omega
  · cases value with
    | none => cases hvalue
    | some value =>
      rw [List.mem_singleton.mp hvalue]
      simp
      omega

theorem RawNode.sizeOf_next {node next : RawNode} (h : next ∈ node.next) :
    sizeOf next < sizeOf node := by
  cases node with
  | scalar => cases h
  | inclusion => cases h
  | reference span name target =>
    cases target with
    | none => cases h
    | some target =>
      rw [List.mem_singleton.mp h]
      simp
      omega
  | sequence span items =>
    obtain ⟨item, hitem, hid⟩ := List.mem_filterMap.mp h
    have hlt := List.sizeOf_lt_of_mem hitem
    rw [show item = some next from hid] at hlt
    simp at hlt ⊢
    omega
  | map span entries =>
    obtain ⟨e, he, hpart⟩ := List.mem_flatMap.mp h
    have hlt := List.sizeOf_lt_of_mem he
    have hpart := RawEntry.sizeOf_parts hpart
    simp
    omega
  | entry e =>
    have hpart := RawEntry.sizeOf_parts h
    simp
    omega

/-- Following items, keys, values and references ends. -/
theorem RawNode.wellFounded_next : WellFounded fun next node : RawNode => next ∈ node.next :=
  Subrelation.wf RawNode.sizeOf_next (measure (sizeOf : RawNode → Nat)).wf

/-! ### histories -/

/-- An event, with the node that it finishes and the anchor of that node. -/
structure Moment where
  event : Event
  anchor : Option String
  node : Option RawNode

/-- Whether an event finishes a node: the start of a collection does not, nor does a scalar that was
left out. -/
def Event.finishesNode : Event → Bool
  | .scalar span value plain anchor tag => !Assembly.isLeftOut span value plain anchor tag
  | .reference .. => true
  | .sequenceEnd _ => true
  | .mappingEnd _ => true
  | _ => false

/-- The node that is finished with an anchor. -/
def Moment.finishes (name : String) (m : Moment) : Option RawNode :=
  if m.anchor = some name then m.node else none

/-- The last node that was finished with an anchor. -/
def lastFinished (name : String) (before : List Moment) : Option RawNode :=
  before.reverse.findSome? (Moment.finishes name)

theorem lastFinished_append (name : String) (a b : List Moment) :
    lastFinished name (a ++ b) = (lastFinished name b).or (lastFinished name a) := by
  rw [lastFinished, List.reverse_append, List.findSome?_append]
  rfl

theorem lastFinished_single (name : String) (m : Moment) :
    lastFinished name [m] = m.finishes name := by
  rw [lastFinished, List.reverse_singleton, List.findSome?_cons]
  cases m.finishes name <;> rfl

/-- It is the node of the last moment that finishes one with the anchor. -/
theorem lastFinished_eq_some {name : String} {before : List Moment} {node : RawNode}
    (h : lastFinished name before = some node) :
    ∃ front m back, before = front ++ m :: back ∧ m.anchor = some name ∧ m.node = some node
      ∧ ∀ m' ∈ back, m'.finishes name = none := by
  obtain ⟨back, m, front, hsplit, hm, hback⟩ := List.findSome?_eq_some_iff.mp h
  refine ⟨front.reverse, m, back.reverse, ?_, ?_⟩
  · have := congrArg List.reverse hsplit
    simpa using this
  · unfold Moment.finishes at hm
    split at hm
    · rename_i hanchor
      exact ⟨hanchor, hm, fun m' hm' => hback m' (List.mem_reverse.mp hm')⟩
    · cases hm

/-- What each moment calls for, given the moments in front of it. -/
def gather {α : Type} (f : List Moment → Moment → List α) :
    (before : List Moment) → List Moment → List α
  | _, [] => []
  | before, m :: rest => f before m ++ gather f (before ++ [m]) rest

theorem gather_append {α : Type} (f : List Moment → Moment → List α) (before a b : List Moment) :
    gather f before (a ++ b) = gather f before a ++ gather f (before ++ a) b := by
  induction a generalizing before with
  | nil => simp [gather]
  | cons m rest ih =>
    rw [List.cons_append, gather, gather, ih, List.append_assoc]
    simp

/-- The anchors of the nodes that events finish.  `opened` holds the anchors of the collections
whose ends are still to come. -/
def finishedAnchors : (opened : List (Option String)) → List Event → List (Option String)
  | _, [] => []
  | opened, .scalar _ _ _ anchor _ :: rest => anchor :: finishedAnchors opened rest
  | opened, .sequenceStart _ anchor _ :: rest => none :: finishedAnchors (anchor :: opened) rest
  | opened, .mappingStart _ anchor _ :: rest => none :: finishedAnchors (anchor :: opened) rest
  | opened, .sequenceEnd _ :: rest => opened.head?.join :: finishedAnchors opened.tail rest
  | opened, .mappingEnd _ :: rest => opened.head?.join :: finishedAnchors opened.tail rest
  | opened, _ :: rest => none :: finishedAnchors opened rest

/-! ### reports about names -/

/-- How the report about a reference that stands for nothing begins. -/
def undefinedAlias : String := "found undefined alias "

def RawDiagnostic.isUndefinedAlias (d : RawDiagnostic) : Bool :=
  undefinedAlias.toList.isPrefixOf d.reason.toList

/-- The report about a reference to a name that no node was finished with. -/
def undefinedAt (base : Int) (before : List Moment) (m : Moment) : List RawDiagnostic :=
  match m.event with
  | .reference span name =>
    if (lastFinished name before).isNone then
      [⟨undefinedAlias ++ Text.quoted name, span.shift base, false⟩]
    else []
  | _ => []

/-- The warning about a node whose anchor an earlier node was finished with. -/
def repeatedAt (before : List Moment) (m : Moment) : List String :=
  match m.anchor with
  | some name =>
    if (lastFinished name before).isSome then ["found duplicate anchor " ++ Text.quoted name]
    else []
  | none => []

/-- A history that explains how events led to a root and to reports about names. -/
structure Resolves (base : Int) (read : List Event) (root : Option RawNode)
    (reports : List RawDiagnostic) (history : List Moment) : Prop where
  events : history.map Moment.event = read
  anchors : history.map Moment.anchor = finishedAnchors [] read
  finished : ∀ m ∈ history, m.node.isSome = m.event.finishesNode
  nodes : history.filterMap Moment.node = nodes? root
  targets : ∀ before m after, history = before ++ m :: after →
    ∀ span name, m.event = .reference span name →
      m.node = some (.reference (span.shift base) name (lastFinished name before))
  undefined : reports.filter RawDiagnostic.isUndefinedAlias = gather (undefinedAt base) [] history
  repeated : (reports.filter RawDiagnostic.isWarning).map RawDiagnostic.reason
    = gather repeatedAt [] history
  earlier : ∀ before m after, history = before ++ m :: after →
    ∀ node ∈ m.node, ∀ next ∈ node.next, ∃ m' ∈ before, m'.node = some next

namespace EventTree

mutual

/-- The events of a tree, each with the node that it finishes. -/
def history (src : Source) (base : Int) : EventTree → List (String × RawNode) → List Moment
  | .scalar span value plain anchor tag, anchors =>
    [⟨.scalar span value plain anchor tag, anchor,
      (scalarMeaning src (span.shift base) value plain anchor tag anchors).value.node⟩]
  | .reference span name, anchors =>
    [⟨.reference span name, none, (referenceMeaning (span.shift base) name anchors).value.node⟩]
  | .sequence start anchor tag items stop, anchors =>
    ⟨.sequenceStart start anchor tag, none, none⟩ :: (itemHistory src base items anchors
      ++ [⟨.sequenceEnd stop, anchor, some (.sequence (collectionSpan base start stop)
        (itemsMeaning src base items anchors).value)⟩])
  | .mapping start anchor tag pairs stop, anchors =>
    ⟨.mappingStart start anchor tag, none, none⟩ :: (pairHistory src base pairs [] anchors
      ++ [⟨.mappingEnd stop, anchor, some (.map (collectionSpan base start stop)
        (pairsMeaning src base pairs [] anchors).value)⟩])

def itemHistory (src : Source) (base : Int) :
    List EventTree → List (String × RawNode) → List Moment
  | [], _ => []
  | item :: rest, anchors =>
    item.history src base anchors
      ++ itemHistory src base rest (item.meaning src base anchors).anchors

def pairHistory (src : Source) (base : Int) :
    List (EventTree × EventTree) → List RawEntry → List (String × RawNode) → List Moment
  | [], _, _ => []
  | (key, value) :: rest, earlier, anchors =>
    let k := key.meaning src base anchors
    let v := value.meaning src base k.anchors
    key.history src base anchors ++ (value.history src base k.anchors
      ++ pairHistory src base rest (earlier ++ [pairEntry k.value v.value]) v.anchors)

end

section
variable (src : Source) (base : Int)

mutual

theorem history_events : ∀ (tree : EventTree) (anchors : List (String × RawNode)),
    (tree.history src base anchors).map Moment.event = tree.events
  | .scalar .., _ => rfl
  | .reference .., _ => rfl
  | .sequence start anchor tag items stop, anchors => by
    rw [history, List.map_cons, List.map_append, itemHistory_events items anchors]
    rfl
  | .mapping start anchor tag pairs stop, anchors => by
    rw [history, List.map_cons, List.map_append, pairHistory_events pairs [] anchors]
    rfl

theorem itemHistory_events : ∀ (items : List EventTree) (anchors : List (String × RawNode)),
    (itemHistory src base items anchors).map Moment.event = itemEvents items
  | [], _ => rfl
  | item :: rest, anchors => by
    rw [itemHistory, List.map_append, history_events item, itemHistory_events rest]
    rfl

theorem pairHistory_events : ∀ (pairs : List (EventTree × EventTree)) (earlier : List RawEntry)
    (anchors : List (String × RawNode)),
    (pairHistory src base pairs earlier anchors).map Moment.event = pairEvents pairs
  | [], _, _ => rfl
  | (key, value) :: rest, earlier, anchors => by
    rw [pairHistory, List.map_append, List.map_append, history_events key, history_events value,
      pairHistory_events rest]
    rfl

end

mutual

theorem history_anchors : ∀ (tree : EventTree) (anchors : List (String × RawNode))
    (opened : List (Option String)) (rest : List Event),
    finishedAnchors opened (tree.events ++ rest)
      = (tree.history src base anchors).map Moment.anchor ++ finishedAnchors opened rest
  | .scalar .., _, _, _ => rfl
  | .reference .., _, _, _ => rfl
  | .sequence start anchor tag items stop, anchors, opened, rest => by
    rw [events, List.cons_append, List.append_assoc, finishedAnchors,
      itemHistory_anchors items anchors, history]
    simp [finishedAnchors]
  | .mapping start anchor tag pairs stop, anchors, opened, rest => by
    rw [events, List.cons_append, List.append_assoc, finishedAnchors,
      pairHistory_anchors pairs [] anchors, history]
    simp [finishedAnchors]

theorem itemHistory_anchors : ∀ (items : List EventTree) (anchors : List (String × RawNode))
    (opened : List (Option String)) (rest : List Event),
    finishedAnchors opened (itemEvents items ++ rest)
      = (itemHistory src base items anchors).map Moment.anchor ++ finishedAnchors opened rest
  | [], _, _, _ => rfl
  | item :: more, anchors, opened, rest => by
    rw [itemEvents, List.append_assoc, history_anchors item anchors, itemHistory_anchors more
      (item.meaning src base anchors).anchors, itemHistory, List.map_append, List.append_assoc]

theorem pairHistory_anchors : ∀ (pairs : List (EventTree × EventTree)) (earlier : List RawEntry)
    (anchors : List (String × RawNode)) (opened : List (Option String)) (rest : List Event),
    finishedAnchors opened (pairEvents pairs ++ rest)
      = (pairHistory src base pairs earlier anchors).map Moment.anchor
        ++ finishedAnchors opened rest
  | [], _, _, _, _ => rfl
  | (key, value) :: more, earlier, anchors, opened, rest => by
    let k := key.meaning src base anchors
    let v := value.meaning src base k.anchors
    rw [pairEvents, List.append_assoc, List.append_assoc, history_anchors key anchors,
      history_anchors value k.anchors,
      pairHistory_anchors more (earlier ++ [pairEntry k.value v.value]) v.anchors, pairHistory]
    simp only [List.map_append, List.append_assoc, k, v]

end

theorem scalarMeaning_nodes (span : Span) (value : Text) (plain : Bool)
    (anchor tag : Option String) (anchors : List (String × RawNode)) :
    nodes? (scalarMeaning src span value plain anchor tag anchors).value.node
      = (scalarMeaning src span value plain anchor tag anchors).value.node.toList := by
  unfold scalarMeaning
  split
  · rfl
  · split <;> rfl

mutual

theorem history_nodes : ∀ (tree : EventTree) (anchors : List (String × RawNode)),
    (tree.history src base anchors).filterMap Moment.node
      = nodes? (tree.meaning src base anchors).value.node
  | .scalar span value plain anchor tag, anchors => by
    rw [meaning, scalarMeaning_nodes, history]
    cases (scalarMeaning src (span.shift base) value plain anchor tag anchors).value.node <;> rfl
  | .reference .., _ => rfl
  | .sequence start anchor tag items stop, anchors => by
    rw [history, List.filterMap_cons_none rfl, List.filterMap_append, itemHistory_nodes items]
    rfl
  | .mapping start anchor tag pairs stop, anchors => by
    rw [history, List.filterMap_cons_none rfl, List.filterMap_append, pairHistory_nodes pairs]
    rfl

theorem itemHistory_nodes : ∀ (items : List EventTree) (anchors : List (String × RawNode)),
    (itemHistory src base items anchors).filterMap Moment.node
      = itemNodes (itemsMeaning src base items anchors).value
  | [], _ => rfl
  | item :: rest, anchors => by
    rw [itemHistory, List.filterMap_append, history_nodes item, itemHistory_nodes rest]
    rfl

theorem pairHistory_nodes : ∀ (pairs : List (EventTree × EventTree)) (earlier : List RawEntry)
    (anchors : List (String × RawNode)),
    (pairHistory src base pairs earlier anchors).filterMap Moment.node
      = entryNodes (pairsMeaning src base pairs earlier anchors).value
  | [], _, _ => rfl
  | (key, value) :: rest, earlier, anchors => by
    rw [pairHistory, List.filterMap_append, List.filterMap_append, history_nodes key,
      history_nodes value, pairHistory_nodes rest, ← List.append_assoc]
    rfl

end

end

end EventTree

/-! ### names along a history -/

/-- The anchors bind each name to the node that was last finished with it. -/
def Binds (before : List Moment) (anchors : List (String × RawNode)) : Prop :=
  ∀ name, anchors.lookup name = lastFinished name before

/-- A moment has a node if its event finishes one; a reference stands for what was last finished,
and a node leads to nodes finished before. -/
structure Moment.IsSettled (base : Int) (before : List Moment) (m : Moment) : Prop where
  finished : m.node.isSome = m.event.finishesNode
  target : ∀ span name, m.event = .reference span name →
    m.node = some (.reference (span.shift base) name (lastFinished name before))
  earlier : ∀ node ∈ m.node, ∀ next ∈ node.next, ∃ m' ∈ before, m'.node = some next

def Settled (base : Int) : (before : List Moment) → List Moment → Prop
  | _, [] => True
  | before, m :: rest => m.IsSettled base before ∧ Settled base (before ++ [m]) rest

theorem Settled.append {base : Int} {before a b : List Moment} (ha : Settled base before a)
    (hb : Settled base (before ++ a) b) : Settled base before (a ++ b) := by
  induction a generalizing before with
  | nil => rwa [List.append_nil] at hb
  | cons m rest ih =>
    refine ⟨ha.1, ih ha.2 ?_⟩
    rwa [List.append_assoc, List.singleton_append]

theorem Settled.at {base : Int} {before front back : List Moment} {m : Moment}
    (h : Settled base before (front ++ m :: back)) : m.IsSettled base (before ++ front) := by
  induction front generalizing before with
  | nil =>
    rw [List.append_nil]
    exact h.1
  | cons m' rest ih =>
    have := ih h.2
    rwa [List.append_assoc, List.singleton_append] at this

/-- Moments behind others, with the anchors that they leave and the reports that they call for. -/
structure Traces (base : Int) (before moments : List Moment) (anchors : List (String × RawNode))
    (reports : List RawDiagnostic) : Prop where
  binds : Binds (before ++ moments) anchors
  settled : Settled base before moments
  undefined : reports.filter RawDiagnostic.isUndefinedAlias
    = gather (undefinedAt base) before moments
  repeated : (reports.filter RawDiagnostic.isWarning).map RawDiagnostic.reason
    = gather repeatedAt before moments

theorem Traces.append {base : Int} {before a b : List Moment}
    {anchors anchors' : List (String × RawNode)} {ra rb : List RawDiagnostic}
    (ha : Traces base before a anchors ra) (hb : Traces base (before ++ a) b anchors' rb) :
    Traces base before (a ++ b) anchors' (ra ++ rb) := by
  refine ⟨?_, ha.settled.append hb.settled, ?_, ?_⟩
  · rw [← List.append_assoc]
    exact hb.binds
  · rw [List.filter_append, ha.undefined, hb.undefined, gather_append]
  · rw [List.filter_append, List.map_append, ha.repeated, hb.repeated, gather_append]

/-- Reports that are about no name. -/
def IsNameless (reports : List RawDiagnostic) : Prop :=
  reports.filter RawDiagnostic.isUndefinedAlias = [] ∧ reports.filter RawDiagnostic.isWarning = []

theorem Traces.nil {base : Int} {before : List Moment} {anchors : List (String × RawNode)}
    (h : Binds before anchors) {reports : List RawDiagnostic} (hreports : IsNameless reports) :
    Traces base before [] anchors reports := by
  refine ⟨?_, trivial, hreports.1, ?_⟩
  · rwa [List.append_nil]
  · rw [hreports.2]
    rfl

theorem isNameless_nil : IsNameless [] := ⟨rfl, rfl⟩

theorem tagReports_nameless (src : Source) (tag : Option String) (kind : TagKind) (span : Span) :
    IsNameless (tagReports src tag kind span) := by
  unfold tagReports Assembly.tagReport?
  cases tag with
  | none => exact isNameless_nil
  | some tag =>
    by_cases hplain : tag = Tag.nonSpecific
    · simp [hplain, isNameless_nil]
    · cases hkind : src.tags.lookup tag with
      | none =>
        simp [hplain, hkind, IsNameless, RawDiagnostic.isUndefinedAlias, undefinedAlias,
          List.isPrefixOf]
      | some expected =>
        by_cases heq : expected = kind
        · simp [hplain, hkind, heq, isNameless_nil]
        · simp [hplain, hkind, heq, IsNameless, RawDiagnostic.isUndefinedAlias, undefinedAlias,
            List.isPrefixOf]

theorem repeatReports_nameless (text : Text) (earlier : List RawEntry) (key : Placed) :
    IsNameless (repeatReports text earlier key) := by
  unfold repeatReports
  split
  · simp [IsNameless, RawDiagnostic.isUndefinedAlias, undefinedAlias, duplicateKey, List.isPrefixOf]
  · exact isNameless_nil

theorem Binds.bindTo {before : List Moment} {anchors : List (String × RawNode)}
    (h : Binds before anchors) (event : Event) (anchor : Option String) (node : RawNode) :
    Binds (before ++ [⟨event, anchor, some node⟩]) (bindTo anchors anchor node) := by
  intro name
  rw [lastFinished_append, lastFinished_single, ← h name]
  cases anchor with
  | none => simp [YamlSpan.bindTo, Moment.finishes]
  | some bound =>
    rw [YamlSpan.bindTo, Assoc.lookup_put]
    by_cases hname : bound = name
    · simp [hname, Moment.finishes]
    · simp [hname, Moment.finishes]

theorem Binds.empty {before : List Moment} {anchors : List (String × RawNode)}
    (h : Binds before anchors) (event : Event) :
    Binds (before ++ [⟨event, none, none⟩]) anchors := by
  intro name
  rw [lastFinished_append, lastFinished_single, h name]
  simp [Moment.finishes]

theorem mem_of_lastFinished {name : String} {before : List Moment} {node : RawNode}
    (h : lastFinished name before = some node) : ∃ m ∈ before, m.node = some node := by
  obtain ⟨front, m, back, rfl, -, hnode, -⟩ := lastFinished_eq_some h
  exact ⟨m, List.mem_append_right _ List.mem_cons_self, hnode⟩

section
variable (base : Int) {before : List Moment} {anchors : List (String × RawNode)}

theorem undefinedAt_of_not_reference {m : Moment}
    (h : ∀ span name, m.event ≠ .reference span name) : undefinedAt base before m = [] := by
  unfold undefinedAt
  split
  · rename_i span name hevent
    exact absurd hevent (h span name)
  · rfl

/-- An event that finishes nothing. -/
theorem Traces.start (h : Binds before anchors) {event : Event}
    (hevent : ∀ span name, event ≠ .reference span name) (hnode : event.finishesNode = false) :
    Traces base before [⟨event, none, none⟩] anchors [] := by
  refine ⟨h.empty event, ⟨⟨hnode.symm, fun span name he => absurd he (hevent span name), nofun⟩,
    trivial⟩, ?_, rfl⟩
  rw [gather, undefinedAt_of_not_reference base hevent]
  rfl

/-- An event that finishes a node, other than a reference. -/
theorem Traces.finish (h : Binds before anchors) {event : Event}
    (hevent : ∀ span name, event ≠ .reference span name) (hnode : event.finishesNode = true)
    (anchor : Option String) (node : RawNode)
    (hnext : ∀ next ∈ node.next, ∃ m ∈ before, m.node = some next) (mark : Span) :
    Traces base before [⟨event, anchor, some node⟩] (bindTo anchors anchor node)
      (anchorReports anchors anchor mark) := by
  refine ⟨h.bindTo event anchor node,
    ⟨⟨hnode.symm, fun span name he => absurd he (hevent span name), ?_⟩, trivial⟩, ?_, ?_⟩
  · intro n hn next hmem
    cases hn
    exact hnext next hmem
  · rw [gather, undefinedAt_of_not_reference base hevent]
    unfold anchorReports
    cases anchor with
    | none => rfl
    | some name =>
      simp only
      split
      · simp [RawDiagnostic.isUndefinedAlias, undefinedAlias, List.isPrefixOf, gather]
      · rfl
  · rw [gather, gather, List.append_nil]
    unfold anchorReports repeatedAt
    cases anchor with
    | none => rfl
    | some name =>
      simp only [h name]
      split <;> simp

theorem Traces.reference (h : Binds before anchors) (span : Span) (name : String) :
    Traces base before
      [⟨.reference span name, none, (referenceMeaning (span.shift base) name anchors).value.node⟩]
      anchors (referenceMeaning (span.shift base) name anchors).reports := by
  refine ⟨?_, ⟨⟨rfl, ?_, ?_⟩, trivial⟩, ?_, ?_⟩
  · intro n
    rw [lastFinished_append, lastFinished_single, h n]
    simp [Moment.finishes]
  · rintro span' name' ⟨⟩
    rw [referenceMeaning, h name]
  · intro node hnode next hnext
    cases hnode
    rw [RawNode.next, Option.mem_toList, h name] at hnext
    exact mem_of_lastFinished hnext
  · rw [gather, gather, List.append_nil]
    simp only [referenceMeaning, referenceReports, undefinedAt, h name]
    split
    · simp [RawDiagnostic.isUndefinedAlias, undefinedAlias]
    · rfl
  · simp only [referenceMeaning, referenceReports]
    split <;> rfl

theorem Event.finishesNode_scalar (span : Span) (value : Text) (plain : Bool)
    (anchor tag : Option String) :
    (Event.scalar span value plain anchor tag).finishesNode = false
      ↔ value = [] ∧ plain = true ∧ anchor = none ∧ tag = none
        ∧ (span.shift base).start = (span.shift base).stop := by
  rw [Event.finishesNode, Bool.not_eq_false', Assembly.isLeftOut_iff]
  have hshift : (span.shift base).start = (span.shift base).stop ↔ span.start = span.stop := by
    simp [Span.shift]
  rw [hshift]

theorem Traces.scalar (src : Source) (h : Binds before anchors) (span : Span) (value : Text)
    (plain : Bool) (anchor tag : Option String) :
    let m := scalarMeaning src (span.shift base) value plain anchor tag anchors
    Traces base before [⟨.scalar span value plain anchor tag, anchor, m.value.node⟩] m.anchors
      m.reports := by
  intro m
  have hevent : ∀ s n, Event.scalar span value plain anchor tag ≠ .reference s n := nofun
  have hleft := Event.finishesNode_scalar base span value plain anchor tag
  unfold m scalarMeaning
  split
  · rename_i hout
    have hstart := Traces.start base h hevent (hleft.mpr hout)
    rw [hout.2.2.1] at hstart ⊢
    exact hstart
  · rename_i hout
    have hnode := eq_true_of_ne_false fun hfalse => hout (hleft.mp hfalse)
    split
    · exact Traces.finish base h hevent hnode anchor (.inclusion (span.shift base) value)
        (by simp [RawNode.next]) (span.shift base)
    · have htag : Traces base before [] anchors (tagReports src tag .scalar (span.shift base)) :=
        .nil h (tagReports_nameless ..)
      exact htag.append (Traces.finish base htag.binds hevent hnode anchor
        (.scalar (span.shift base) value plain tag) (by simp [RawNode.next]) (span.shift base))

/-- A collection around moments of its own: it is finished behind what it leads to. -/
theorem Traces.collection (src : Source) (h : Binds before anchors) (kind : TagKind)
    (anchor tag : Option String) (mark : Span) {first last : Event}
    (hfirst : first.finishesNode = false) (hlast : last.finishesNode = true)
    (hplain : ∀ span name, last ≠ .reference span name) {inner : List Moment}
    {bound : List (String × RawNode)} {reports : List RawDiagnostic}
    (hinner : ∀ {front}, Binds front anchors → Traces base front inner bound reports)
    (node : RawNode) (hnext : ∀ next ∈ node.next, next ∈ inner.filterMap Moment.node) :
    Traces base before (⟨first, none, none⟩ :: (inner ++ [⟨last, anchor, some node⟩]))
      (bindTo bound anchor node)
      ((tagReports src tag kind mark ++ reports) ++ anchorReports bound anchor mark) := by
  have htag : Traces base before [] anchors (tagReports src tag kind mark) :=
    .nil h (tagReports_nameless ..)
  have hopens : ∀ span name, first ≠ .reference span name := by
    rintro span name rfl
    cases hfirst
  have hstart := htag.append (Traces.start base htag.binds hopens hfirst)
  have hbody := hstart.append (hinner hstart.binds)
  have hfinish := hbody.append (Traces.finish base hbody.binds hplain hlast anchor node
    (fun next hmem => by
      obtain ⟨m, hm, hnode⟩ := List.mem_filterMap.mp (hnext next hmem)
      exact ⟨m, List.mem_append_right _ (List.mem_append_right _ hm), hnode⟩) mark)
  simpa using hfinish

end

namespace EventTree

variable (src : Source) (base : Int)

mutual

/-- The history of a tree traces its meaning. -/
theorem history_traces : ∀ (tree : EventTree) {before : List Moment}
    {anchors : List (String × RawNode)}, Binds before anchors →
    Traces base before (tree.history src base anchors) (tree.meaning src base anchors).anchors
      (tree.meaning src base anchors).reports
  | .scalar span value plain anchor tag, _, _, h =>
    Traces.scalar base src h span value plain anchor tag
  | .reference span name, _, _, h => Traces.reference base h span name
  | .sequence start anchor tag items stop, before, anchors, h =>
    Traces.collection base src h .sequence anchor tag (start.shift base)
      (show (Event.sequenceStart start anchor tag).finishesNode = false from rfl)
      (show (Event.sequenceEnd stop).finishesNode = true from rfl) nofun
      (itemHistory_traces items)
      (.sequence (collectionSpan base start stop) (itemsMeaning src base items anchors).value)
      fun next hnext => by
        rw [itemHistory_nodes]
        exact mem_itemNodes hnext
  | .mapping start anchor tag pairs stop, before, anchors, h =>
    Traces.collection base src h .mapping anchor tag (start.shift base)
      (show (Event.mappingStart start anchor tag).finishesNode = false from rfl)
      (show (Event.mappingEnd stop).finishesNode = true from rfl) nofun
      (pairHistory_traces pairs [])
      (.map (collectionSpan base start stop) (pairsMeaning src base pairs [] anchors).value)
      fun next hnext => by
        rw [pairHistory_nodes]
        exact mem_entryNodes hnext

theorem itemHistory_traces : ∀ (items : List EventTree) {before : List Moment}
    {anchors : List (String × RawNode)}, Binds before anchors →
    Traces base before (itemHistory src base items anchors)
      (itemsMeaning src base items anchors).anchors (itemsMeaning src base items anchors).reports
  | [], _, _, h => .nil h isNameless_nil
  | item :: rest, before, anchors, h => by
    have hitem := history_traces item h
    exact hitem.append (itemHistory_traces rest hitem.binds)

theorem pairHistory_traces : ∀ (pairs : List (EventTree × EventTree)) (earlier : List RawEntry)
    {before : List Moment} {anchors : List (String × RawNode)}, Binds before anchors →
    Traces base before (pairHistory src base pairs earlier anchors)
      (pairsMeaning src base pairs earlier anchors).anchors
      (pairsMeaning src base pairs earlier anchors).reports
  | [], _, _, _, h => .nil h isNameless_nil
  | (key, value) :: rest, earlier, before, anchors, h => by
    have hkey := history_traces key h
    have hvalue := history_traces value hkey.binds
    have hrepeat : Traces base _ [] _ (repeatReports src.text earlier
        (key.meaning src base anchors).value) :=
      .nil hvalue.binds (repeatReports_nameless ..)
    have hentry := hvalue.append hrepeat
    rw [List.append_nil] at hentry
    have hothers := hentry.append (pairHistory_traces rest
      (earlier ++ [pairEntry (key.meaning src base anchors).value
        (value.meaning src base (key.meaning src base anchors).anchors).value]) hentry.binds)
    have hall := hkey.append hothers
    rw [List.append_assoc] at hall
    exact hall

end

/-- The history of a tree explains its node and the reports about it. -/
theorem history_resolves (tree : EventTree) :
    Resolves base tree.events (tree.meaning src base []).value.node
      (tree.meaning src base []).reports (tree.history src base []) := by
  have htraces := @history_traces src base tree [] [] fun _ => rfl
  have hsettled : ∀ before m after, tree.history src base [] = before ++ m :: after →
      m.IsSettled base before := by
    intro before m after hsplit
    have hall := htraces.settled
    rw [hsplit] at hall
    exact hall.at
  have hanchors := tree.history_anchors src base [] [] []
  rw [List.append_nil, finishedAnchors, List.append_nil] at hanchors
  refine ⟨tree.history_events src base [], hanchors.symm, fun m hm => ?_,
    tree.history_nodes src base [], fun _ _ _ hsplit => (hsettled _ _ _ hsplit).target,
    htraces.undefined, htraces.repeated, fun _ _ _ hsplit => (hsettled _ _ _ hsplit).earlier⟩
  obtain ⟨before, after, hsplit⟩ := List.append_of_mem hm
  exact (hsettled _ _ _ hsplit).finished

end EventTree

/-! ### documents -/

/-- What is kept of a tree has a history; where nothing is kept, it is empty. -/
theorem exists_history (src : Source) (base : Int) (kept : Option EventTree) :
    ∃ history, Resolves base (kept.elim [] EventTree.events) (keptRoot src base kept)
      (keptReports src base kept) history := by
  cases kept with
  | none => exact ⟨[], rfl, rfl, nofun, rfl, by simp, rfl, rfl, by simp⟩
  | some tree => exact ⟨_, tree.history_resolves src base⟩

/-- No node comes back to itself. -/
theorem RawNode.next_irrefl (node : RawNode) :
    ¬ Relation.TransGen (fun node next : RawNode => next ∈ node.next) node node := by
  intro h
  have hsize : ∀ next, Relation.TransGen (fun node next : RawNode => next ∈ node.next) node next →
      sizeOf next < sizeOf node := by
    intro next hpath
    induction hpath with
    | single hstep => exact RawNode.sizeOf_next hstep
    | tail _ hstep ih => exact Nat.lt_trans (RawNode.sizeOf_next hstep) ih
  exact Nat.lt_irrefl _ (hsize node h)

namespace Assembly

variable (src : Source)

/-- **A reference stands for the last node finished with its name**, in its own document and in
front of it, and is reported if there is none; an anchor is reported if its name was finished
before.  That is so of a whole document, from any state before, and of one that a failure cuts
short, where the events that close what is open finish nodes too.  So following items, keys, values
and references never comes back. -/
theorem references_resolve (c : Assembly) (start : Span) (tree : EventTree) :
    (∀ stop : Span, ∃ (c' : Assembly) (d : RawDocument) (history : List Moment),
      (takeAll src (.documentStart start :: (tree.events ++ [.documentEnd stop]))).run c
        = .ok () c'
      ∧ c'.documents = c.documents ++ [d]
      ∧ Resolves c.base tree.events d.root d.diagnostics history)
    ∧ (∀ (read : List Event) (f : Failure), read <+: tree.events →
      ∃ (resume : Option Nat) (c' : Assembly) (d : RawDocument)
        (before after : List RawDiagnostic) (closing : List Event) (history : List Moment),
        (takeAll src (.documentStart start :: read) >>= fun _ => breakOff src f).run c
          = .ok resume c'
        ∧ c'.documents = c.documents ++ [d]
        ∧ d.diagnostics = before ++ failureReport src c.base f :: after
        ∧ (∀ event ∈ closing, ClosesAt (failureOffset src c.base f - c.base) event)
        ∧ Resolves c.base (read ++ closing) d.root (before ++ after) history)
    ∧ (WellFounded fun next node : RawNode => next ∈ node.next)
    ∧ ∀ node : RawNode,
      ¬ Relation.TransGen (fun node next : RawNode => next ∈ node.next) node node := by
  refine ⟨fun stop => ?_, fun read f hread => ?_, RawNode.wellFounded_next, RawNode.next_irrefl⟩
  · exact ⟨_, _, _, takeAll_document src c ⟨start, tree, stop⟩, rfl,
      tree.history_resolves src c.base⟩
  · obtain ⟨r, rfl, hkeeps⟩ := exists_reading hread
    obtain ⟨closing, hevents, hcloses⟩ := (hkeeps src c.base (failureOffset src c.base f)).events
    obtain ⟨after, -, hreports, -⟩ :=
      closeAll_reading src c.base (failureOffset src c.base f - c.base) r
    obtain ⟨anchors, hrun⟩ := breakOff_reading src f c start r
    obtain ⟨history, hresolves⟩ :=
      exists_history src c.base (r.kept (failureOffset src c.base f - c.base))
    rw [hevents, hreports] at hresolves
    refine ⟨_, _, _, (r.reached src c.base).reports, after, closing, history, hrun, rfl, ?_,
      hcloses, hresolves⟩
    rw [brokenDocument, hreports, List.drop_left]

/-- The inner reference of `[&a x, &a [*a], *a` stands for the scalar, since the sequence around it
is not finished there, and the outer one for the sequence. -/
theorem references_resolve_inside_own_anchor :
    let src : Source := ⟨"[&a x, &a [*a], *a".toList.map .char, .empty⟩
    let f := Failure.ofProblem "expected ',' or ']'" ⟨"", 18, 0, 18⟩
    let read := [Event.sequenceStart ⟨0, 1⟩ none none,
      .scalar ⟨1, 5⟩ [.char 'x'] true (some "a") none, .sequenceStart ⟨7, 11⟩ (some "a") none,
      .reference ⟨11, 13⟩ "a", .sequenceEnd ⟨13, 14⟩, .reference ⟨16, 18⟩ "a"]
    let tree := EventTree.sequence ⟨0, 1⟩ none none
      [.scalar ⟨1, 5⟩ [.char 'x'] true (some "a") none,
        .sequence ⟨7, 11⟩ (some "a") none [.reference ⟨11, 13⟩ "a"] ⟨13, 14⟩,
        .reference ⟨16, 18⟩ "a"] ⟨18, 18⟩
    read <+: tree.events
      ∧ ∃ resume c' d before after closing history,
        (takeAll src (.documentStart ⟨0, 0⟩ :: read) >>= fun _ => breakOff src f).run initial
          = .ok resume c'
        ∧ c'.documents = [d]
        ∧ d.diagnostics = before ++ failureReport src 0 f :: after
        ∧ Resolves 0 (read ++ closing) d.root (before ++ after) history := by
  intro src f read tree
  have hread : read <+: tree.events := by decide
  obtain ⟨resume, c', d, before, after, closing, history, hrun, hdocuments, hreports, -,
    hresolves⟩ := (references_resolve src initial ⟨0, 0⟩ tree).2.1 read f hread
  exact ⟨hread, resume, c', d, before, after, closing, history, hrun, hdocuments, hreports,
    hresolves⟩

end Assembly

end YamlSpan
