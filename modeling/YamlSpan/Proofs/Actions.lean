import YamlSpan.Proofs.EventTree

/-!
# The actions of an assembly with an open document

While a document is open no action of an event inside it meets a fault.  Each action is run here
once on such an assembly, with its reports, bindings and nodes named as meanings name them; later
proofs run events through these equations only.

* `add_root`, `add_item`, `add_key`, `add_value`   where a finished node goes
* `scalar_run`, `reference_run`                    a leaf is added as its meaning says
* `openCollection_run`, `close_run`                the two ends of a collection
* `close_waiting`                                  an end where a key still waits
-/

namespace YamlSpan

/-- A document with more reports. -/
def RawDocument.reporting (d : RawDocument) (reports : List RawDiagnostic) : RawDocument :=
  { d with diagnostics := d.diagnostics ++ reports }

@[simp] theorem RawDocument.reporting_nil (d : RawDocument) : d.reporting [] = d := by
  simp [reporting]

@[simp] theorem RawDocument.reporting_reporting (d : RawDocument) (a b : List RawDiagnostic) :
    (d.reporting a).reporting b = d.reporting (a ++ b) := by
  simp [reporting]

theorem WaitingKey.stop_eq (key : Placed) :
    WaitingKey.stop ⟨key.node, key.span.start⟩ = key.keyStop := by
  unfold WaitingKey.stop Placed.keyStop
  cases key.node <;> rfl

theorem OpenCollection.node_start (c : OpenCollection) (stop : Int) :
    (c.node stop).span.start = c.start := by
  unfold OpenCollection.node
  cases c.content <;> rfl

namespace Assembly

/-- The assembly behind a part of a document that has a meaning. -/
def behind {α : Type} (m : Meaning α) (documents : List RawDocument) (d : RawDocument)
    (stack : List OpenCollection) (base : Int) : Assembly :=
  ⟨documents, some (d.reporting m.reports), stack, m.anchors, base⟩

variable (src : Source) (documents : List RawDocument) (d : RawDocument)
  (stack : List OpenCollection) (anchors : List (String × RawNode)) (base : Int)

/-! ### reports and anchors -/

theorem report_run (reason : String) (span : Span) (isWarning : Bool) :
    (report reason span isWarning).run ⟨documents, some d, stack, anchors, base⟩
      = .ok () ⟨documents, some (d.reporting [⟨reason, span, isWarning⟩]), stack, anchors, base⟩ :=
  rfl

theorem checkTag_run (tag : Option String) (kind : TagKind) (span : Span) :
    (checkTag src tag kind span).run ⟨documents, some d, stack, anchors, base⟩
      = .ok () ⟨documents, some (d.reporting (tagReports src tag kind span)), stack, anchors,
          base⟩ := by
  unfold checkTag tagReports
  cases tagReport? src.tags tag kind with
  | none => simp
  | some reason => exact report_run ..

theorem bindAnchor_run (anchor : Option String) (node : RawNode) (span : Span) :
    (bindAnchor anchor node span).run ⟨documents, some d, stack, anchors, base⟩
      = .ok () ⟨documents, some (d.reporting (anchorReports anchors anchor span)), stack,
          bindTo anchors anchor node, base⟩ := by
  unfold bindAnchor anchorReports bindTo
  cases anchor with
  | none => simp
  | some name =>
    by_cases h : (anchors.lookup name).isSome = true
    · simp [h, report_run]
    · simp [h]

/-! ### where a finished node goes -/

theorem add_root (node : Option RawNode) (span : Span) :
    (add src node span).run ⟨documents, some d, [], anchors, base⟩
      = .ok () ⟨documents, some { d with root := node }, [], anchors, base⟩ := rfl

section
variable (start anchorStop : Int) (anchor : Option String)

theorem add_item (items : List (Option RawNode)) (node : Option RawNode) (span : Span) :
    (add src node span).run
        ⟨documents, some d, ⟨start, anchor, anchorStop, .sequence items⟩ :: stack, anchors, base⟩
      = .ok () ⟨documents, some d,
          ⟨start, anchor, anchorStop, .sequence (items ++ [node])⟩ :: stack, anchors, base⟩ := rfl

theorem add_key (entries : List RawEntry) (key : Placed) :
    (add src key.node key.span).run
        ⟨documents, some d, ⟨start, anchor, anchorStop, .mapping entries none⟩ :: stack, anchors,
          base⟩
      = .ok () ⟨documents, some d,
          ⟨start, anchor, anchorStop, .mapping entries (some ⟨key.node, key.span.start⟩)⟩ :: stack,
          anchors, base⟩ := rfl

theorem isRepeated_iff (text : Text) (entries : List RawEntry) (key : Option RawNode) :
    isRepeated text entries key = true
      ↔ keyText text key ∈ entries.map fun e => keyText text e.key := by
  simp [isRepeated]

theorem add_value (entries : List RawEntry) (key value : Placed) :
    (add src value.node value.span).run
        ⟨documents, some d,
          ⟨start, anchor, anchorStop, .mapping entries (some ⟨key.node, key.span.start⟩)⟩ :: stack,
          anchors, base⟩
      = .ok () ⟨documents, some (d.reporting (repeatReports src.text entries key)),
          ⟨start, anchor, anchorStop, .mapping (entries ++ [pairEntry key value]) none⟩ :: stack,
          anchors, base⟩ := by
  have hentry : WaitingKey.entry ⟨key.node, key.span.start⟩ value.node value.span.stop
      = pairEntry key value := by
    rw [WaitingKey.entry, WaitingKey.stop_eq, pairEntry]
  unfold add repeatReports
  by_cases h : keyText src.text key.node ∈ entries.map fun e => keyText src.text e.key
  · have hrep := (isRepeated_iff ..).mpr h
    rw [if_pos h]
    simp [hrep, report_run, hentry, WaitingKey.stop_eq]
  · have hrep := Bool.eq_false_iff.mpr fun hr => h ((isRepeated_iff ..).mp hr)
    rw [if_neg h]
    simp [hrep, hentry]

end

/-! ### leaves -/

theorem isLeftOut_iff (span : Span) (value : Text) (plain : Bool) (anchor tag : Option String) :
    isLeftOut span value plain anchor tag = true
      ↔ value = [] ∧ plain = true ∧ anchor = none ∧ tag = none ∧ span.start = span.stop := by
  unfold isLeftOut
  simp only [Bool.and_eq_true, List.isEmpty_iff, Option.isNone_iff_eq_none, beq_iff_eq]
  constructor
  · rintro ⟨⟨⟨⟨hv, hp⟩, ht⟩, ha⟩, hs⟩
    exact ⟨hv, hp, ha, ht, hs⟩
  · rintro ⟨hv, hp, ha, ht, hs⟩
    exact ⟨⟨⟨⟨hv, hp⟩, ht⟩, ha⟩, hs⟩

theorem scalar_run (span : Span) (value : Text) (plain : Bool) (anchor tag : Option String) :
    (scalar src span value plain anchor tag).run ⟨documents, some d, stack, anchors, base⟩
      = let m := scalarMeaning src span value plain anchor tag anchors
        (add src m.value.node m.value.span).run (behind m documents d stack base) := by
  unfold scalar scalarMeaning
  by_cases hout : value = [] ∧ plain = true ∧ anchor = none ∧ tag = none ∧ span.start = span.stop
  · rw [if_pos hout, if_pos ((isLeftOut_iff ..).mpr hout)]
    simp [behind]
  · rw [if_neg hout, if_neg (fun h => hout ((isLeftOut_iff ..).mp h))]
    by_cases htag : tag = some Tag.inclusion
    · rw [if_pos htag, if_pos htag]
      simp [bindAnchor_run, finished, behind, RawNode.span]
    · rw [if_neg htag, if_neg htag]
      simp [checkTag_run, bindAnchor_run, finished, behind, RawNode.span]

theorem reference_run (span : Span) (name : String) :
    (reference src span name).run ⟨documents, some d, stack, anchors, base⟩
      = let m := referenceMeaning span name anchors
        (add src m.value.node m.value.span).run (behind m documents d stack base) := by
  unfold reference referenceMeaning referenceReports
  by_cases h : (anchors.lookup name).isNone = true
  · simp [h, report_run, behind]
  · simp [h, behind]

/-! ### collections -/

theorem openCollection_run (kind : TagKind) (content : Content) (span : Span)
    (anchor tag : Option String) :
    (openCollection src kind content span anchor tag).run
        ⟨documents, some d, stack, anchors, base⟩
      = .ok () ⟨documents, some (d.reporting (tagReports src tag kind span)),
          ⟨span.start, anchor, span.stop, content⟩ :: stack, anchors, base⟩ := by
  unfold openCollection
  simp [checkTag_run]

/-- The end of a collection in which no key waits. -/
theorem close_run (c : OpenCollection) (stop : Int) (hc : c.isWaiting = false) :
    (close src stop).run ⟨documents, some d, c :: stack, anchors, base⟩
      = let m := finished anchors c.anchor (c.node stop) ⟨c.start, c.anchorStop⟩ []
        (add src m.value.node m.value.span).run (behind m documents d stack base) := by
  unfold close pop
  simp [hc, bindAnchor_run, finished, behind, OpenCollection.node_start]

/-- A key that waits at the end of its map gets a value that was left out there. -/
theorem close_waiting (start anchorStop : Int) (anchor : Option String) (entries : List RawEntry)
    (key : Placed) (stop : Int) :
    (close src stop).run ⟨documents, some d,
        ⟨start, anchor, anchorStop, .mapping entries (some ⟨key.node, key.span.start⟩)⟩ :: stack,
        anchors, base⟩
      = (close src stop).run ⟨documents, some (d.reporting (repeatReports src.text entries key)),
          ⟨start, anchor, anchorStop,
            .mapping (entries ++ [pairEntry key ⟨none, ⟨stop, stop⟩⟩]) none⟩ :: stack,
          anchors, base⟩ := by
  have hadd := add_value src documents d stack anchors base start anchorStop anchor entries key
    ⟨none, ⟨stop, stop⟩⟩
  unfold close
  simp [OpenCollection.isWaiting, hadd]

end Assembly

end YamlSpan
