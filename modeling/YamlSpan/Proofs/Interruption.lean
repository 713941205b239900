import YamlSpan.Proofs.Truncation

/-!
# Breaking off keeps what was read

A failure can meet an assembly before, inside or behind the root of its document.  What was read of
the root is all of it or layers of it; the layers are closed at the failure, after the report about
it.  So the document has the root that the closed layers mean, and their reports with the one about
the failure in the place where reading stopped.

* `Reading`                       what has been read of a root
* `breakOff_idle`                 a failure outside of a document
* `breakOff_reading`              a failure in a document of which a part has been read
* `breakOff_keeps_what_was_read`  both, for every part of every tree from the left
-/

namespace YamlSpan

/-- The offset of a failure in the whole text: where it says, but inside the text, or the end of
the text where it does not say. -/
def Failure.offset (f : Failure) (length : Nat) (base : Int) : Int :=
  match f.index? with
  | some index => min (base + index) length
  | none => length

/-- What has been read of the root of a document: layers of it, or all of it. -/
inductive Reading where
  | part (layers : List Layer)
  | whole (tree : EventTree)

namespace Reading

def events : Reading → List Event
  | .part layers => layerEvents layers
  | .whole tree => tree.events

/-- The tree that is left when all that is open ends at a place, if anything has been read. -/
def kept (place : Int) : Reading → Option EventTree
  | .part layers => layerTree place layers
  | .whole tree => some tree

/-- The root and the stack of an assembly that has read so far. -/
def reached (src : Source) (base : Int) : Reading → Meaning (Option RawNode × List OpenCollection)
  | .part layers =>
    let m := layerStack src base layers []
    ⟨(none, m.value), m.anchors, m.reports⟩
  | .whole tree =>
    let m := tree.meaning src base []
    ⟨(m.value.node, []), m.anchors, m.reports⟩

end Reading

/-- The root of what is kept of a tree. -/
def keptRoot (src : Source) (base : Int) (kept : Option EventTree) : Option RawNode :=
  kept.bind fun tree => (tree.meaning src base []).value.node

/-- The reports about what is kept of a tree. -/
def keptReports (src : Source) (base : Int) (kept : Option EventTree) : List RawDiagnostic :=
  kept.elim [] fun tree => (tree.meaning src base []).reports

/-- What is kept of a tree, of which some events have been read, when all that is open ends at an
offset: those events with the ends of what was open and the places of missing values, and so the
nodes of the tree as far as they go. -/
structure Keeps (src : Source) (base offset : Int) (tree : EventTree) (read : List Event)
    (kept : Option EventTree) : Prop where
  events : ∃ closing, kept.elim [] EventTree.events = read ++ closing
    ∧ ∀ event ∈ closing, ClosesAt (offset - base) event
  nodes : read = [] ∧ kept = none
    ∨ CutAt offset (keptRoot src base kept) (tree.meaning src base []).value.node

/-- What is read of a tree is kept when all that is open ends. -/
theorem exists_reading {tree : EventTree} {read : List Event} (h : read <+: tree.events) :
    ∃ r : Reading, r.events = read
      ∧ ∀ (src : Source) (base offset : Int),
        Keeps src base offset tree read (r.kept (offset - base)) := by
  rcases tree.prefix_events h with rfl | ⟨layers, rfl, hcut⟩
  · refine ⟨.whole tree, rfl, fun src base offset => ⟨⟨[], ?_, ?_⟩, .inr (.whole _)⟩⟩
    · rw [List.append_nil]
      rfl
    · intro event hevent
      cases hevent
  · refine ⟨.part layers, rfl, fun src base offset => ⟨layerTree_events _ _, ?_⟩⟩
    cases htree : layerTree (offset - base) layers with
    | none =>
      obtain rfl := layerTree_eq_none htree
      exact .inl ⟨rfl, htree⟩
    | some part =>
      have hpart := (cutAt_of_cut src base (offset - base) hcut htree []).1
      rw [show base + (offset - base) = offset by omega] at hpart
      right
      rw [Reading.kept, htree]
      exact hpart

/-- The report about a failure: to the end of its line. -/
def failureReport (src : Source) (base : Int) (f : Failure) : RawDiagnostic :=
  ⟨f.reason, ⟨Assembly.failureOffset src base f,
    Assembly.lineStop src.text (Assembly.failureOffset src base f)⟩, false⟩

namespace Assembly

variable (src : Source)

theorem failureOffset_eq (base : Int) (f : Failure)
    (h : ∀ index, f.index? = some index → 0 ≤ base + index) :
    (failureOffset src base f : Int) = f.offset src.text.length base := by
  unfold failureOffset Failure.offset
  cases hindex : f.index? with
  | none => rfl
  | some index =>
    have := h index hindex
    simp only
    omega

/-- Where reading goes on after a failure. -/
def resumeAt (base : Int) (f : Failure) : Option Nat :=
  nextMarker src.text (max (failureOffset src base f) (base + 1).toNat)

/-! ### reading and closing -/

/-- The events of a document up to where reading stopped. -/
theorem takeAll_reading (c : Assembly) (start : Span) (r : Reading) :
    (takeAll src (.documentStart start :: r.events)).run c
      = let m := r.reached src c.base
        .ok () ⟨c.documents,
          some ⟨⟨c.base + start.start, c.base + start.start⟩, m.value.1, m.reports⟩, m.value.2,
          m.anchors, c.base⟩ := by
  have hstart : (takeEvent src (.documentStart start)).run c
      = .ok () ⟨c.documents, some ⟨⟨c.base + start.start, c.base + start.start⟩, none, []⟩,
          [], [], c.base⟩ := rfl
  rw [takeAll_cons src _ _ hstart]
  cases r with
  | part layers =>
    rw [Reading.events, takeAll_layers]
    simp [Reading.reached, behind, RawDocument.reporting]
  | whole tree =>
    rw [Reading.events, takeAll_events]
    simp [Reading.reached, behind, RawDocument.reporting, add_root]

/-- Closing what is open leaves the root of what is kept and reports the rest about it. -/
theorem closeAll_reading (base place : Int) (r : Reading) :
    let m := r.reached src base
    ∃ after anchors, keptReports src base (r.kept place) = m.reports ++ after
      ∧ ∀ (documents : List RawDocument) (span : Span) (reports : List RawDiagnostic),
        (closeAll src (base + place) m.value.2.length).run
            ⟨documents, some ⟨span, m.value.1, reports⟩, m.value.2, m.anchors, base⟩
          = .ok () ⟨documents,
              some ⟨span, keptRoot src base (r.kept place), reports ++ after⟩, [], anchors,
              base⟩ := by
  cases r with
  | part layers =>
    cases htree : layerTree place layers with
    | none =>
      obtain rfl := layerTree_eq_none htree
      refine ⟨[], [], rfl, fun documents span reports => ?_⟩
      rw [List.append_nil]
      rfl
    | some tree =>
      obtain ⟨after, hafter, hclose⟩ := closeAll_layers src base place layers tree htree []
      refine ⟨after, (tree.meaning src base []).anchors, ?_, fun documents span reports => ?_⟩
      · simpa [keptReports, Reading.kept, Reading.reached, htree] using hafter
      · have h := hclose documents ⟨span, none, reports⟩ []
        simp only [List.append_nil, add_root] at h
        simp only [Reading.reached, Reading.kept, keptRoot, htree, layerStack_length,
          Option.bind_some, h]
        rfl
  | whole tree =>
    refine ⟨[], (tree.meaning src base []).anchors, ?_, fun documents span reports => ?_⟩
    · simp [keptReports, Reading.kept, Reading.reached]
    · rw [List.append_nil]
      rfl

/-! ### breaking off -/

/-- A failure in an open document, whatever closing the stack leaves of it. -/
theorem breakOff_open (f : Failure) {documents : List RawDocument} {d d' : RawDocument}
    {stack : List OpenCollection} {anchors anchors' : List (String × RawNode)} {base : Int}
    (h : (closeAll src (failureOffset src base f) stack.length).run
        ⟨documents, some (d.reporting [failureReport src base f]), stack, anchors, base⟩
      = .ok () ⟨documents, some d', [], anchors', base⟩) :
    (breakOff src f).run ⟨documents, some d, stack, anchors, base⟩
      = .ok (resumeAt src base f)
          ⟨documents ++ [{ d' with span := ⟨d'.span.start,
              max ((resumeAt src base f).getD src.text.length) d'.span.start⟩ }],
            none, [], anchors', base⟩ := by
  unfold breakOff requireDocument
  simp only [EStateM.run_bind, EStateM.run_get, Option.isNone_some, Bool.false_eq_true, if_false,
    EStateM.run_pure, report_run]
  rw [failureReport] at h
  rw [h]
  rfl

/-- Where the last of some documents ends. -/
def lastStop (documents : List RawDocument) : Int :=
  (documents.getLast?.map (·.span.stop)).getD 0

/-- The document of a failure outside of one: it starts where the last one ended, but not behind
the failure. -/
def idleDocument (base previous : Int) (f : Failure) : RawDocument :=
  let start := min previous (failureOffset src base f)
  ⟨⟨start, max ((resumeAt src base f).getD src.text.length) start⟩, none,
    [failureReport src base f]⟩

/-- A failure outside of a document. -/
theorem breakOff_idle (f : Failure) (c : Assembly) (h : c.current = none) :
    (breakOff src f).run c
      = .ok (resumeAt src c.base f)
          ⟨c.documents ++ [idleDocument src c.base (lastStop c.documents) f], none, [], [],
            c.base⟩ := by
  obtain ⟨documents, current, stack, anchors, base⟩ := c
  subst h
  rfl

/-- The document of which a part had been read when a failure met it. -/
def brokenDocument (base : Int) (start : Span) (r : Reading) (f : Failure) : RawDocument :=
  let before := (r.reached src base).reports
  let kept := r.kept (failureOffset src base f - base)
  ⟨⟨base + start.start,
      max ((resumeAt src base f).getD src.text.length) (base + start.start)⟩,
    keptRoot src base kept,
    before ++ failureReport src base f :: (keptReports src base kept).drop before.length⟩

/-- A failure in a document of which a part has been read. -/
theorem breakOff_reading (f : Failure) (c : Assembly) (start : Span) (r : Reading) :
    ∃ anchors, (takeAll src (.documentStart start :: r.events) >>= fun _ => breakOff src f).run c
      = .ok (resumeAt src c.base f)
          ⟨c.documents ++ [brokenDocument src c.base start r f], none, [], anchors, c.base⟩ := by
  obtain ⟨after, anchors, hreports, hclose⟩ :=
    closeAll_reading src c.base (failureOffset src c.base f - c.base) r
  refine ⟨anchors, ?_⟩
  rw [show c.base + (failureOffset src c.base f - c.base) = (failureOffset src c.base f : Int) by
    omega] at hclose
  rw [EStateM.run_bind, takeAll_reading]
  simp only
  rw [breakOff_open src f (hclose _ _ _), brokenDocument, hreports]
  simp

/-- The reports of such a document: those about what is kept, with the one about the failure among
them. -/
theorem brokenDocument_reports (base : Int) (start : Span) (r : Reading) (f : Failure) :
    ∃ after, keptReports src base (r.kept (failureOffset src base f - base))
        = (r.reached src base).reports ++ after
      ∧ (brokenDocument src base start r f).diagnostics
        = (r.reached src base).reports ++ failureReport src base f :: after := by
  obtain ⟨after, -, hreports, -⟩ := closeAll_reading src base (failureOffset src base f - base) r
  refine ⟨after, hreports, ?_⟩
  rw [brokenDocument, hreports, List.drop_left]

/-- A failure in a document of which a part has been read, whatever part: the document has the root
of what is kept of the tree, and the reports about that with the one about the failure among them. -/
theorem breakOff_kept (f : Failure) (c : Assembly) (start : Span) {tree : EventTree}
    {read : List Event} (hread : read <+: tree.events) :
    ∃ (resume : Option Nat) (c' : Assembly) (d : RawDocument) (kept : Option EventTree)
      (before after : List RawDiagnostic),
      (takeAll src (.documentStart start :: read) >>= fun _ => breakOff src f).run c
        = .ok resume c'
      ∧ c'.documents = c.documents ++ [d]
      ∧ d.root = keptRoot src c.base kept
      ∧ keptReports src c.base kept = before ++ after
      ∧ d.diagnostics = before ++ failureReport src c.base f :: after := by
  obtain ⟨r, rfl, -⟩ := exists_reading hread
  obtain ⟨anchors, hrun⟩ := breakOff_reading src f c start r
  obtain ⟨after, hkept, hreports⟩ := brokenDocument_reports src c.base start r f
  exact ⟨_, _, _, r.kept (failureOffset src c.base f - c.base), _, after, hrun, rfl, rfl, hkept,
    hreports⟩

/-- The report about a failure, said by the offset that the failure has. -/
theorem failureReport_eq (base : Int) (f : Failure)
    (h : ∀ index, f.index? = some index → 0 ≤ base + index) :
    failureReport src base f = ⟨f.reason, ⟨f.offset src.text.length base,
      lineStop src.text (f.offset src.text.length base).toNat⟩, false⟩ := by
  rw [failureReport, ← failureOffset_eq src base f h, Int.toNat_natCast]

/-- **A failure keeps what was read**, each event once and in its place.  In a document of which a
part of the root has been read, from any state before, it meets no fault, leaves nothing open and
appends one document: the root is what is kept of the tree, and the reports so far come first, then
the one about the failure.  Outside of a document it appends one without a root. -/
theorem breakOff_keeps_what_was_read (f : Failure) :
    (∀ (c : Assembly) (start : Span) (tree : EventTree) (read : List Event),
      read <+: tree.events → (∀ index, f.index? = some index → 0 ≤ c.base + index) →
      let offset := f.offset src.text.length c.base
      ∃ (stopped left : Assembly) (d : RawDocument) (resume : Option Nat)
        (kept : Option EventTree) (after : List RawDiagnostic),
        (takeAll src (.documentStart start :: read)).run c = .ok () stopped
        ∧ stopped.current = some d
        ∧ (breakOff src f).run stopped = .ok resume left
        ∧ left.stack = [] ∧ left.current = none
        ∧ left.documents = c.documents ++ [⟨⟨c.base + start.start,
              max (resume.getD src.text.length) (c.base + start.start)⟩,
            keptRoot src c.base kept,
            d.diagnostics
              ++ ⟨f.reason, ⟨offset, lineStop src.text offset.toNat⟩, false⟩ :: after⟩]
        ∧ Keeps src c.base offset tree read kept
        ∧ keptReports src c.base kept = d.diagnostics ++ after)
    ∧ ∀ c : Assembly, c.current = none →
      (∀ index, f.index? = some index → 0 ≤ c.base + index) →
      let offset := f.offset src.text.length c.base
      let start := min (lastStop c.documents) offset
      ∃ (left : Assembly) (resume : Option Nat),
        (breakOff src f).run c = .ok resume left
        ∧ left.stack = [] ∧ left.current = none
        ∧ left.documents = c.documents
          ++ [⟨⟨start, max (resume.getD src.text.length) start⟩, none,
            [⟨f.reason, ⟨offset, lineStop src.text offset.toNat⟩, false⟩]⟩] := by
  constructor
  · intro c start tree read hread hindex offset
    obtain ⟨r, rfl, hkeeps⟩ := exists_reading hread
    have hoffset : (failureOffset src c.base f : Int) = offset :=
      failureOffset_eq src c.base f hindex
    obtain ⟨after, anchors, hreports, hclose⟩ :=
      closeAll_reading src c.base (offset - c.base) r
    rw [show c.base + (offset - c.base) = (failureOffset src c.base f : Int) by omega] at hclose
    refine ⟨_, _, _, _, _, after, takeAll_reading src c start r, rfl,
      breakOff_open src f (hclose _ _ _), rfl, rfl, ?_, hkeeps src c.base offset, hreports⟩
    simp [failureReport_eq src c.base f hindex, offset]
  · intro c hidle hindex offset start
    refine ⟨_, _, breakOff_idle src f c hidle, rfl, rfl, ?_⟩
    simp [idleDocument, failureReport_eq src c.base f hindex, failureOffset_eq src c.base f hindex,
      offset, start]

/-- A failure inside a sequence that is itself the first key of a map, as in `? [a`. -/
theorem breakOff_keeps_open_key :
    let src : Source := ⟨[.char '?', .char ' ', .char '[', .char 'a'], .empty⟩
    let f := Failure.ofProblem "expected ',' or ']'" ⟨"", 4, 0, 4⟩
    let item := EventTree.scalar ⟨3, 4⟩ [.char 'a'] true none none
    let tree := EventTree.mapping ⟨0, 1⟩ none none
      [(.sequence ⟨2, 3⟩ none none [item] ⟨4, 5⟩, .leftOut 5)] ⟨5, 5⟩
    let read := .mappingStart ⟨0, 1⟩ none none :: .sequenceStart ⟨2, 3⟩ none none :: item.events
    read <+: tree.events ∧ f.index? = some 4
      ∧ ∃ stopped left resume,
        (takeAll src (.documentStart ⟨0, 0⟩ :: read)).run initial = .ok () stopped
        ∧ (breakOff src f).run stopped = .ok resume left
        ∧ left.stack = [] ∧ left.current = none ∧ left.documents.length = 1 := by
  intro src f item tree read
  have hread : read <+: tree.events := by decide
  have hindex : ∀ index, f.index? = some index → 0 ≤ initial.base + index := by
    rintro index ⟨⟩
    decide
  obtain ⟨stopped, left, d, resume, kept, after, htake, -, hbreak, hstack, hcurrent, hdocuments,
    -⟩ := (breakOff_keeps_what_was_read src f).1 initial ⟨0, 0⟩ tree read hread hindex
  refine ⟨hread, rfl, stopped, left, resume, htake, hbreak, hstack, hcurrent, ?_⟩
  rw [hdocuments]
  rfl

end Assembly

end YamlSpan
