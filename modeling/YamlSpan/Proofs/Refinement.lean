import YamlSpan.Proofs.Actions

/-!
# The stack of an assembly refines the recursive meaning of a document

Taking in the events of a tree amounts to adding the node of its meaning, whatever is open around
it: that is an equation between two runs, so that the collection around the tree decides what
becomes of the node.  The items of a sequence and the pairs of a map follow by the same recursion,
in which the top of the stack holds what is done so far.

* `takeAll_events`, `takeAll_itemEvents`, `takeAll_pairEvents`   the three equations
* `takeAll_document`                                             a whole document, from any state
-/

namespace YamlSpan

namespace Assembly

variable (src : Source)

/-! ### runs of events -/

theorem takeAll_cons (event : Event) (rest : List Event) {c c' : Assembly}
    (h : (takeEvent src event).run c = .ok () c') :
    (takeAll src (event :: rest)).run c = (takeAll src rest).run c' := by
  rw [takeAll, EStateM.run_bind, h]

theorem takeAll_singleton (event : Event) (c : Assembly) :
    (takeAll src [event]).run c = (takeEvent src event).run c := by
  rw [takeAll, EStateM.run_bind]
  cases (takeEvent src event).run c <;> rfl

theorem takeAll_append (a b : List Event) (c : Assembly) :
    (takeAll src (a ++ b)).run c = (takeAll src a >>= fun _ => takeAll src b).run c := by
  induction a generalizing c with
  | nil => rfl
  | cons event rest ih =>
    rw [List.cons_append, takeAll, takeAll, bind_assoc, EStateM.run_bind, EStateM.run_bind]
    cases (takeEvent src event).run c with
    | ok _ c' => exact ih c'
    | error e c' => rfl

theorem takeAll_append_ok {a b : List Event} {c c' : Assembly}
    (h : (takeAll src a).run c = .ok () c') :
    (takeAll src (a ++ b)).run c = (takeAll src b).run c' := by
  rw [takeAll_append, EStateM.run_bind, h]

theorem takeEvent_sequenceEnd (span : Span) (c : Assembly) :
    (takeEvent src (.sequenceEnd span)).run c = (close src (c.base + span.stop)).run c := rfl

theorem takeEvent_mappingEnd (span : Span) (c : Assembly) :
    (takeEvent src (.mappingEnd span)).run c = (close src (c.base + span.stop)).run c := rfl

/-! ### trees -/

variable (documents : List RawDocument) (base : Int)

mutual

/-- The events of a tree add the node of its meaning. -/
theorem takeAll_events : ∀ (tree : EventTree) (d : RawDocument) (stack : List OpenCollection)
    (anchors : List (String × RawNode)),
    (takeAll src tree.events).run ⟨documents, some d, stack, anchors, base⟩
      = let m := tree.meaning src base anchors
        (add src m.value.node m.value.span).run (behind m documents d stack base)
  | .scalar span value plain anchor tag, d, stack, anchors => by
    rw [EventTree.events, takeAll_singleton]
    exact scalar_run src documents d stack anchors base (span.shift base) value plain anchor tag
  | .reference span name, d, stack, anchors => by
    rw [EventTree.events, takeAll_singleton]
    exact reference_run src documents d stack anchors base (span.shift base) name
  | .sequence start anchor tag items stop, d, stack, anchors => by
    have hopen : (takeEvent src (.sequenceStart start anchor tag)).run
        ⟨documents, some d, stack, anchors, base⟩ = _ :=
      openCollection_run src documents d stack anchors base .sequence (.sequence [])
        (start.shift base) anchor tag
    have hitems := takeAll_itemEvents items (d.reporting (tagReports src tag .sequence
      (start.shift base))) stack anchors (start.shift base).start (start.shift base).stop anchor []
    rw [EventTree.events, takeAll_cons src _ _ hopen, takeAll_append_ok src hitems,
      takeAll_singleton, takeEvent_sequenceEnd, behind, close_run _ _ _ _ _ _ _ _ rfl]
    simp only [EventTree.meaning, finished, behind, RawDocument.reporting_reporting,
      List.append_assoc, List.nil_append]
    rfl
  | .mapping start anchor tag pairs stop, d, stack, anchors => by
    have hopen : (takeEvent src (.mappingStart start anchor tag)).run
        ⟨documents, some d, stack, anchors, base⟩ = _ :=
      openCollection_run src documents d stack anchors base .mapping (.mapping [] none)
        (start.shift base) anchor tag
    have hpairs := takeAll_pairEvents pairs (d.reporting (tagReports src tag .mapping
      (start.shift base))) stack anchors (start.shift base).start (start.shift base).stop anchor []
    rw [EventTree.events, takeAll_cons src _ _ hopen, takeAll_append_ok src hpairs,
      takeAll_singleton, takeEvent_mappingEnd, behind, close_run _ _ _ _ _ _ _ _ rfl]
    simp only [EventTree.meaning, finished, behind, RawDocument.reporting_reporting,
      List.append_assoc, List.nil_append]
    rfl

/-- The events of items append their nodes to the sequence on top of the stack. -/
theorem takeAll_itemEvents : ∀ (items : List EventTree) (d : RawDocument)
    (stack : List OpenCollection) (anchors : List (String × RawNode)) (start anchorStop : Int)
    (anchor : Option String) (done : List (Option RawNode)),
    (takeAll src (EventTree.itemEvents items)).run ⟨documents, some d,
        ⟨start, anchor, anchorStop, .sequence done⟩ :: stack, anchors, base⟩
      = let m := EventTree.itemsMeaning src base items anchors
        .ok () (behind m documents d
          (⟨start, anchor, anchorStop, .sequence (done ++ m.value)⟩ :: stack) base)
  | [], d, stack, anchors, start, anchorStop, anchor, done => by
    simp [EventTree.itemEvents, EventTree.itemsMeaning, takeAll, behind]
  | item :: rest, d, stack, anchors, start, anchorStop, anchor, done => by
    have hitem := takeAll_events item d (⟨start, anchor, anchorStop, .sequence done⟩ :: stack)
      anchors
    simp only [behind, add_item] at hitem
    rw [EventTree.itemEvents, takeAll_append_ok src hitem, takeAll_itemEvents rest]
    simp only [EventTree.itemsMeaning, behind, RawDocument.reporting_reporting, List.append_assoc,
      List.singleton_append]

/-- The events of keys and values append their entries to the map on top of the stack. -/
theorem takeAll_pairEvents : ∀ (pairs : List (EventTree × EventTree)) (d : RawDocument)
    (stack : List OpenCollection) (anchors : List (String × RawNode)) (start anchorStop : Int)
    (anchor : Option String) (done : List RawEntry),
    (takeAll src (EventTree.pairEvents pairs)).run ⟨documents, some d,
        ⟨start, anchor, anchorStop, .mapping done none⟩ :: stack, anchors, base⟩
      = let m := EventTree.pairsMeaning src base pairs done anchors
        .ok () (behind m documents d
          (⟨start, anchor, anchorStop, .mapping (done ++ m.value) none⟩ :: stack) base)
  | [], d, stack, anchors, start, anchorStop, anchor, done => by
    simp [EventTree.pairEvents, EventTree.pairsMeaning, takeAll, behind]
  | (key, value) :: rest, d, stack, anchors, start, anchorStop, anchor, done => by
    have hkey := takeAll_events key d (⟨start, anchor, anchorStop, .mapping done none⟩ :: stack)
      anchors
    simp only [behind, add_key] at hkey
    have hvalue := takeAll_events value
      (d.reporting (key.meaning src base anchors).reports)
      (⟨start, anchor, anchorStop, .mapping done (some ⟨(key.meaning src base anchors).value.node,
        (key.meaning src base anchors).value.span.start⟩)⟩ :: stack)
      (key.meaning src base anchors).anchors
    simp only [behind, add_value] at hvalue
    rw [EventTree.pairEvents, takeAll_append_ok src hkey, takeAll_append_ok src hvalue,
      takeAll_pairEvents rest]
    simp only [EventTree.pairsMeaning, behind, RawDocument.reporting_reporting, List.append_assoc,
      List.singleton_append]

end

/-! ### documents -/

/-- The events of a document add its raw document and leave nothing open. -/
theorem takeAll_document (c : Assembly) (doc : EventDocument) :
    (takeAll src doc.events).run c
      = .ok () ⟨c.documents ++ [doc.toRaw src c.base], none, [],
          (doc.root.meaning src c.base []).anchors, c.base⟩ := by
  have hstart : (takeEvent src (.documentStart doc.start)).run c
      = .ok () ⟨c.documents, some ⟨⟨c.base + doc.start.start, c.base + doc.start.start⟩, none, []⟩,
          [], [], c.base⟩ := rfl
  have hroot := takeAll_events src c.documents c.base doc.root
    ⟨⟨c.base + doc.start.start, c.base + doc.start.start⟩, none, []⟩ [] []
  simp only [behind, add_root] at hroot
  rw [EventDocument.events, takeAll_cons src _ _ hstart, takeAll_append_ok src hroot,
    takeAll_singleton]
  rfl

/-- **A document is assembled as its tree means**, whatever was finished, open or bound before:
its events meet no fault, append one document to those before, leave nothing open, and the root of
the document is the node that the recursion over the tree gives. -/
theorem document_refines_meaning (c : Assembly) (start : Span) (tree : EventTree) (stop : Span) :
    ∃ (c' : Assembly) (d : RawDocument),
      (takeAll src (.documentStart start :: (tree.events ++ [.documentEnd stop]))).run c
        = .ok () c'
      ∧ c'.documents = c.documents ++ [d] ∧ c'.current = none ∧ c'.stack = []
      ∧ d.root = (tree.meaning src c.base []).value.node
      ∧ d.span = ⟨c.base + start.start, max (c.base + stop.stop) (c.base + start.start)⟩
      ∧ d.diagnostics = (tree.meaning src c.base []).reports :=
  ⟨_, _, takeAll_document src c ⟨start, tree, stop⟩, rfl, rfl, rfl, rfl, rfl, rfl⟩

end Assembly

end YamlSpan
