import YamlSpan.Raw.Assembly

/-!
# Event trees and their meaning

The events of one node form a tree: a scalar or a reference is a leaf, a collection holds the trees
of its items or of its keys and values between two events.  A tree has a meaning by recursion, in
which nothing is pushed, popped or left waiting:

* `EventTree.events`    the events of a tree from left to right
* `EventTree.meaning`   its node in its place, the anchors bound behind it and the reports about it
* `EventDocument`       a tree between the events of a document, with its raw document

The reports of a part come in the order in which the events of the part call for them.  What an
anchor stands for depends on what was bound before, so a meaning takes the anchors in front of it
and gives those behind it.
-/

namespace YamlSpan

/-- The span of an event in the text it was read from. -/
def Event.span : Event → Span
  | .documentStart span => span
  | .documentEnd span => span
  | .scalar span .. => span
  | .reference span _ => span
  | .sequenceStart span .. => span
  | .sequenceEnd span => span
  | .mappingStart span .. => span
  | .mappingEnd span => span

/-- A node with all that is below it, as events. -/
inductive EventTree where
  | scalar (span : Span) (value : Text) (plain : Bool) (anchor tag : Option String)
  | reference (span : Span) (name : String)
  | sequence (start : Span) (anchor tag : Option String) (items : List EventTree) (stop : Span)
  | mapping (start : Span) (anchor tag : Option String) (pairs : List (EventTree × EventTree))
      (stop : Span)

namespace EventTree

mutual

/-- The events of a tree from left to right. -/
def events : EventTree → List Event
  | .scalar span value plain anchor tag => [.scalar span value plain anchor tag]
  | .reference span name => [.reference span name]
  | .sequence start anchor tag items stop =>
    .sequenceStart start anchor tag :: (itemEvents items ++ [.sequenceEnd stop])
  | .mapping start anchor tag pairs stop =>
    .mappingStart start anchor tag :: (pairEvents pairs ++ [.mappingEnd stop])

def itemEvents : List EventTree → List Event
  | [] => []
  | item :: rest => item.events ++ itemEvents rest

def pairEvents : List (EventTree × EventTree) → List Event
  | [] => []
  | (key, value) :: rest => key.events ++ (value.events ++ pairEvents rest)

end

theorem itemEvents_append (a b : List EventTree) :
    itemEvents (a ++ b) = itemEvents a ++ itemEvents b := by
  induction a with
  | nil => rfl
  | cons item rest ih =>
    rw [List.cons_append, itemEvents, itemEvents, ih, List.append_assoc]

theorem pairEvents_append (a b : List (EventTree × EventTree)) :
    pairEvents (a ++ b) = pairEvents a ++ pairEvents b := by
  induction a with
  | nil => rfl
  | cons pair rest ih =>
    obtain ⟨key, value⟩ := pair
    rw [List.cons_append, pairEvents, pairEvents, ih]
    simp only [List.append_assoc]

end EventTree

/-! ### meanings -/

/-- The same characters in a text with `offset` characters in front. -/
def Span.shift (offset : Int) (s : Span) : Span := ⟨offset + s.start, offset + s.stop⟩

/-- A span that has no part in front of the text. -/
def Span.IsNonneg (s : Span) : Prop := 0 ≤ s.start ∧ 0 ≤ s.stop

instance : DecidablePred Span.IsNonneg := fun _ => inferInstanceAs (Decidable (_ ∧ _))

/-- A node where it stands.  A node that was left out stands somewhere too. -/
structure Placed where
  node : Option RawNode
  span : Span

/-- Where a key ends: with its node, or where it starts if it was left out. -/
def Placed.keyStop (key : Placed) : Int :=
  match key.node with
  | some node => node.span.stop
  | none => key.span.start

/-- A value, the anchors bound behind it, and the reports about it. -/
structure Meaning (α : Type) where
  value : α
  anchors : List (String × RawNode)
  reports : List RawDiagnostic

/-- The report about the tag of a node, if there is one. -/
def tagReports (src : Source) (tag : Option String) (kind : TagKind) (span : Span) :
    List RawDiagnostic :=
  (Assembly.tagReport? src.tags tag kind).toList.map fun reason => ⟨reason, span, false⟩

/-- The warning about an anchor whose name is bound. -/
def anchorReports (anchors : List (String × RawNode)) (anchor : Option String) (span : Span) :
    List RawDiagnostic :=
  match anchor with
  | none => []
  | some name =>
    if (anchors.lookup name).isSome then
      [⟨"found duplicate anchor " ++ Text.quoted name, span, true⟩]
    else []

/-- The anchors with the one of a finished node. -/
def bindTo (anchors : List (String × RawNode)) (anchor : Option String) (node : RawNode) :
    List (String × RawNode) :=
  match anchor with
  | none => anchors
  | some name => Assoc.put name node anchors

/-- The report about a reference to a name that is not bound. -/
def referenceReports (anchors : List (String × RawNode)) (span : Span) (name : String) :
    List RawDiagnostic :=
  if (anchors.lookup name).isNone then
    [⟨"found undefined alias " ++ Text.quoted name, span, false⟩]
  else []

/-- The report about a key whose text is that of an earlier one. -/
def repeatReports (text : Text) (earlier : List RawEntry) (key : Placed) : List RawDiagnostic :=
  if keyText text key.node ∈ earlier.map fun e => keyText text e.key then
    [⟨duplicateKey, ⟨key.span.start, key.keyStop⟩, false⟩]
  else []

/-- A node that may have an anchor, when it is finished. -/
def finished (anchors : List (String × RawNode)) (anchor : Option String) (node : RawNode)
    (mark : Span) (reports : List RawDiagnostic) : Meaning Placed :=
  ⟨⟨some node, node.span⟩, bindTo anchors anchor node,
    reports ++ anchorReports anchors anchor mark⟩

/-- The meaning of a scalar: nothing for one without width, value, style, anchor and tag, an
inclusion for one with the tag of inclusions, else a scalar. -/
def scalarMeaning (src : Source) (span : Span) (value : Text) (plain : Bool)
    (anchor tag : Option String) (anchors : List (String × RawNode)) : Meaning Placed :=
  if value = [] ∧ plain = true ∧ anchor = none ∧ tag = none ∧ span.start = span.stop then
    ⟨⟨none, span⟩, anchors, []⟩
  else if tag = some Tag.inclusion then finished anchors anchor (.inclusion span value) span []
  else
    finished anchors anchor (.scalar span value plain tag) span (tagReports src tag .scalar span)

/-- The meaning of a reference: it stands for the node last bound to its name. -/
def referenceMeaning (span : Span) (name : String) (anchors : List (String × RawNode)) :
    Meaning Placed :=
  ⟨⟨some (.reference span name (anchors.lookup name)), span⟩, anchors,
    referenceReports anchors span name⟩

/-- The entry of a key and a value: from the start of the key to the later of both ends. -/
def pairEntry (key value : Placed) : RawEntry :=
  .mk ⟨key.span.start, max value.span.stop key.keyStop⟩ key.node value.node

/-- The span of a collection, which does not end before it starts. -/
def collectionSpan (base : Int) (start stop : Span) : Span :=
  ⟨base + start.start, max (base + stop.stop) (base + start.start)⟩

namespace EventTree

mutual

/-- The meaning of a tree whose events were read from a text at `base`, after the given anchors. -/
def meaning (src : Source) (base : Int) :
    EventTree → List (String × RawNode) → Meaning Placed
  | .scalar span value plain anchor tag, anchors =>
    scalarMeaning src (span.shift base) value plain anchor tag anchors
  | .reference span name, anchors => referenceMeaning (span.shift base) name anchors
  | .sequence start anchor tag items stop, anchors =>
    let inner := itemsMeaning src base items anchors
    finished inner.anchors anchor (.sequence (collectionSpan base start stop) inner.value)
      (start.shift base) (tagReports src tag .sequence (start.shift base) ++ inner.reports)
  | .mapping start anchor tag pairs stop, anchors =>
    let inner := pairsMeaning src base pairs [] anchors
    finished inner.anchors anchor (.map (collectionSpan base start stop) inner.value)
      (start.shift base) (tagReports src tag .mapping (start.shift base) ++ inner.reports)

/-- The meaning of the items of a sequence. -/
def itemsMeaning (src : Source) (base : Int) :
    List EventTree → List (String × RawNode) → Meaning (List (Option RawNode))
  | [], anchors => ⟨[], anchors, []⟩
  | item :: rest, anchors =>
    let first := item.meaning src base anchors
    let others := itemsMeaning src base rest first.anchors
    ⟨first.value.node :: others.value, others.anchors, first.reports ++ others.reports⟩

/-- The meaning of keys and values behind the earlier entries of their map. -/
def pairsMeaning (src : Source) (base : Int) :
    List (EventTree × EventTree) → List RawEntry → List (String × RawNode) →
      Meaning (List RawEntry)
  | [], _, anchors => ⟨[], anchors, []⟩
  | (key, value) :: rest, earlier, anchors =>
    let k := key.meaning src base anchors
    let v := value.meaning src base k.anchors
    let entry := pairEntry k.value v.value
    let others := pairsMeaning src base rest (earlier ++ [entry]) v.anchors
    ⟨entry :: others.value, others.anchors,
      k.reports ++ (v.reports ++ (repeatReports src.text earlier k.value ++ others.reports))⟩

end

theorem itemsMeaning_append (src : Source) (base : Int) (a b : List EventTree)
    (anchors : List (String × RawNode)) :
    itemsMeaning src base (a ++ b) anchors
      = let front := itemsMeaning src base a anchors
        let back := itemsMeaning src base b front.anchors
        ⟨front.value ++ back.value, back.anchors, front.reports ++ back.reports⟩ := by
  induction a generalizing anchors with
  | nil => rfl
  | cons item rest ih =>
    rw [List.cons_append, itemsMeaning, ih]
    simp only [itemsMeaning, List.cons_append, List.append_assoc]

theorem pairsMeaning_append (src : Source) (base : Int) (a b : List (EventTree × EventTree))
    (earlier : List RawEntry) (anchors : List (String × RawNode)) :
    pairsMeaning src base (a ++ b) earlier anchors
      = let front := pairsMeaning src base a earlier anchors
        let back := pairsMeaning src base b (earlier ++ front.value) front.anchors
        ⟨front.value ++ back.value, back.anchors, front.reports ++ back.reports⟩ := by
  induction a generalizing earlier anchors with
  | nil => simp [pairsMeaning]
  | cons pair rest ih =>
    obtain ⟨key, value⟩ := pair
    rw [List.cons_append, pairsMeaning, ih]
    simp only [pairsMeaning, List.cons_append, List.append_assoc, List.nil_append]

end EventTree

/-! ### documents -/

/-- A tree between the events that start and end a document. -/
structure EventDocument where
  start : Span
  root : EventTree
  stop : Span

namespace EventDocument

def events (d : EventDocument) : List Event :=
  .documentStart d.start :: (d.root.events ++ [.documentEnd d.stop])

/-- The raw document of events that were read from a text at `base`. -/
def toRaw (src : Source) (base : Int) (d : EventDocument) : RawDocument :=
  let root := d.root.meaning src base []
  ⟨collectionSpan base d.start d.stop, root.value.node, root.reports⟩

end EventDocument

end YamlSpan
