import YamlSpan.Proofs.Laminar
import YamlSpan.Proofs.Restart

/-!
# Documents one behind the other

Loading gives documents that come one behind the other in the text, and all that is reported is
inside the text.  One run keeps this: its documents lie between where the documents before it end
and where reading goes on.  A document that fails ends exactly there, so that the next run, which
starts there, can go on.

* `EventRun.StaysWithin`    a run that goes forward in its text, up to its failure
* `Stream.added_inOrder`    the documents of one run
* `Runs.documents_inOrder`  the documents of all runs
* `load_documents_tile`     so loaded documents are in order
-/

namespace YamlSpan

/-- How far a run may go: to its failure, or to the end of its text. -/
def EventRun.limit (run : EventRun) (length : Nat) : Int :=
  (run.failure?.bind Failure.index?).getD length

/-- A run of documents that goes forward in a text of some length: no event stops before it starts
or starts before the one in front of it stops, and a failure is behind them all. -/
structure EventRun.StaysWithin (run : EventRun) (length : Nat) : Prop where
  nested : run.IsWellNested
  order : InOrder 0 (run.limit length) (eventSpans run.events)
  limit_le : run.limit length ≤ length

abbrev documentSpans (documents : List RawDocument) : List Span := documents.map RawDocument.span

/-- Reports inside of a text. -/
def ReportsInside (text : Text) (documents : List RawDocument) : Prop :=
  ∀ d ∈ documents, ReportsFit 0 text.length d.diagnostics

/-- A chain of spans ends with the last of them. -/
theorem InOrder.tight {lo hi : Int} {spans : List Span} (h : InOrder lo hi spans) :
    InOrder lo ((spans.getLast?.map Span.stop).getD lo) spans
      ∧ (spans.getLast?.map Span.stop).getD lo ≤ hi := by
  induction spans generalizing lo with
  | nil => exact ⟨Int.le_refl lo, h⟩
  | cons s rest ih =>
    obtain ⟨hlo, hle, hrest⟩ := h
    obtain ⟨horder, hhi⟩ := ih hrest
    have hlast : ((s :: rest).getLast?.map Span.stop).getD lo
        = (rest.getLast?.map Span.stop).getD s.stop := by
      rw [List.getLast?_cons]
      cases rest.getLast? <;> rfl
    rw [hlast]
    exact ⟨⟨hlo, hle, horder⟩, hhi⟩

/-! ### one run -/

theorem documents_fit (src : Source) (base : Int) (documents : List EventDocument) :
    ∀ {lo hi : Int}, InOrder lo hi (eventSpans (documentEvents documents)) →
      InOrder (base + lo) (base + hi) (documentSpans (documents.map (EventDocument.toRaw src base)))
        ∧ ∀ d ∈ documents.map (EventDocument.toRaw src base),
          ReportsFit (base + lo) (base + hi) d.diagnostics := by
  induction documents with
  | nil =>
    intro lo hi h
    have hle : lo ≤ hi := h
    exact ⟨by show base + lo ≤ base + hi; omega, by simp⟩
  | cons doc documents ih =>
    intro lo hi h
    rw [documentEvents, List.flatMap_cons, eventSpans, List.map_append] at h
    obtain ⟨mid, hdoc, hrest⟩ := h.split
    obtain ⟨hfits, hlo, hmid⟩ := doc.toRaw_fits src base hdoc
    obtain ⟨horder, hreports⟩ := ih hrest
    have hle := hrest.le
    obtain ⟨hstart, hforward, hstop⟩ := hfits.place
    refine ⟨⟨by omega, hforward, horder.mono_left (by omega)⟩, ?_⟩
    refine List.forall_mem_cons.mpr ⟨hfits.reports.mono (by omega) (by omega), fun d hd => ?_⟩
    exact (hreports d hd).mono (by omega) (Int.le_refl _)

theorem Assembly.lineStop_le (text : Text) {index : Nat} (h : index ≤ text.length) :
    index ≤ lineStop text index ∧ lineStop text index ≤ text.length := by
  have hlength := ((text.drop index).takeWhile_sublist fun c => !isLineEnd c).length_le
  rw [List.length_drop] at hlength
  unfold lineStop
  omega

theorem failureReport_within (src : Source) (base : Int) (f : Failure) :
    (failureReport src base f).span.Within 0 src.text.length := by
  have hoffset := Assembly.failureOffset_le src base f
  obtain ⟨hforward, hinside⟩ := Assembly.lineStop_le src.text hoffset
  exact ⟨Int.natCast_nonneg _, Int.ofNat_le.mpr hforward, Int.ofNat_le.mpr hinside⟩

/-- The reports of a broken document are those about what is kept, and the one about its failure. -/
theorem Assembly.mem_brokenDocument_diagnostics (src : Source) (base : Int) (start : Span)
    (r : Reading) (f : Failure) {report : RawDiagnostic}
    (h : report ∈ (brokenDocument src base start r f).diagnostics) :
    report = failureReport src base f
      ∨ report ∈ keptReports src base (r.kept (failureOffset src base f - base)) := by
  obtain ⟨after, -, hreports, -⟩ :=
    closeAll_reading src base (failureOffset src base f - base) r
  simp only [brokenDocument, hreports, List.drop_left] at h
  rw [hreports]
  rcases List.mem_append.mp h with hbefore | hrest
  · exact .inr (List.mem_append_left _ hbefore)
  · rcases List.mem_cons.mp hrest with hfailure | hafter
    · exact .inl hfailure
    · exact .inr (List.mem_append_right _ hafter)

open Assembly

/-- Where the documents of a run end: where reading goes on after a failure, or in the text. -/
def Assembly.stopOf (src : Source) (base : Nat) (failure : Option Failure) : Nat :=
  (failure.bind (resumeAt src base)).getD src.text.length

section
variable (src : Source) {base : Nat} (hbase : base ≤ src.text.length) {run : EventRun}
  (h : run.StaysWithin (src.text.drop base).length)
include hbase h

/-- A failure is as far in the text as its run may go. -/
theorem EventRun.StaysWithin.failureOffset_eq {f : Failure} (hf : run.failure? = some f) :
    (failureOffset src base f : Int) = base + run.limit (src.text.drop base).length := by
  have hlimit := h.limit_le
  have hnonneg := h.order.le
  rw [List.length_drop] at hlimit hnonneg ⊢
  unfold EventRun.limit at hlimit hnonneg ⊢
  rw [hf, Option.bind_some] at hlimit hnonneg ⊢
  unfold failureOffset
  cases hindex : f.index? with
  | none =>
    rw [Option.getD_none]
    show (src.text.length : Int) = base + (src.text.length - base : Nat)
    omega
  | some index =>
    rw [hindex, Option.getD_some] at hlimit hnonneg
    rw [Option.getD_some]
    show ((min (base + index) (src.text.length : Int)).toNat : Int) = _
    omega

theorem EventRun.StaysWithin.stopOf_ge :
    base + run.limit (src.text.drop base).length ≤ (stopOf src base run.failure? : Int)
      ∧ stopOf src base run.failure? ≤ src.text.length := by
  have hlimit := h.limit_le
  rw [List.length_drop] at hlimit
  unfold stopOf
  cases hf : run.failure? with
  | none =>
    rw [Option.bind_none, Option.getD_none]
    rw [List.length_drop]
    omega
  | some f =>
    rw [Option.bind_some, ← h.failureOffset_eq src hbase hf]
    refine ⟨failureOffset_le_resume src base f, ?_⟩
    cases hresume : resumeAt src base f with
    | none => exact Nat.le_refl _
    | some i => exact (resumeAt_lt src hresume).2.lt_length.le

/-- The document of a failure is behind the documents of its run, and ends where reading goes on. -/
theorem Stream.failed_fits (s : Stream) {f : Failure} (hf : run.failure? = some f)
    {mid previous : Int} (hmid : 0 ≤ mid) (hprevious : previous ≤ base + mid)
    (horder : InOrder mid (run.limit (src.text.drop base).length)
      (eventSpans (s.rest.elim [] fun (start, reading) =>
        .documentStart start :: reading.events))) :
    InOrder previous (stopOf src base run.failure?) [(s.failed src base previous f).span]
      ∧ ReportsFit 0 src.text.length (s.failed src base previous f).diagnostics := by
  have hoffset := h.failureOffset_eq src hbase hf
  have hlimit := horder.le
  have hresume := failureOffset_le_resume src base f
  have hlength := (h.stopOf_ge src hbase).2
  have hstop : stopOf src base run.failure? = (resumeAt src base f).getD src.text.length := by
    rw [stopOf, hf]
    rfl
  rw [hstop] at hlength ⊢
  unfold Stream.failed
  cases hrest : s.rest with
  | none =>
    -- no document is open, so this one starts where the last one ended
    have hspan : (idleDocument src base previous f).span
        = ⟨previous, ((resumeAt src base f).getD src.text.length : Nat)⟩ := by
      simp only [idleDocument]
      rw [show min previous (failureOffset src base f : Int) = previous by omega]
      rw [Int.max_eq_left (show previous ≤ _ by omega)]
    refine ⟨?_, fun r hr => ?_⟩
    · rw [hspan]
      have hle : previous ≤ failureOffset src base f := by omega
      exact ⟨Int.le_refl _, Int.le_trans hle hresume, Int.le_refl _⟩
    · rw [List.mem_singleton.mp hr]
      exact failureReport_within src base f
  | some part =>
    obtain ⟨start, reading⟩ := part
    rw [hrest, Option.elim_some] at horder
    rw [show run.limit (src.text.drop base).length = failureOffset src base f - base by omega]
      at horder
    obtain ⟨hspan, -, hreports⟩ := brokenDocument_fits src base start reading f horder
    have hstart : mid ≤ start.start := horder.1
    have hforward : start.start ≤ start.stop := horder.2.1
    have hinner : start.stop ≤ failureOffset src base f - base := horder.2.2.le
    refine ⟨?_, fun r hr => ?_⟩
    · rw [hspan]
      have hle : base + start.start ≤ failureOffset src base f := by omega
      exact ⟨Int.le_trans hprevious (Int.add_le_add_left hstart _), Int.le_trans hle hresume,
        Int.le_refl _⟩
    · rcases mem_brokenDocument_diagnostics src base start reading f hr with rfl | hkept
      · exact failureReport_within src base f
      · exact (hreports.mono (by omega) (by omega)) r hkept

/-- The documents that a run adds are in order behind those before it, up to where reading goes
on. -/
theorem Stream.added_inOrder {s : Stream} (hs : run.Follows s) {previous : Int}
    (hprevious : previous ≤ base) :
    InOrder previous (stopOf src base run.failure?)
        (documentSpans (s.added src base previous run.failure?))
      ∧ ReportsInside src.text (s.added src base previous run.failure?) := by
  have horder := h.order
  rw [hs.events, Stream.events, eventSpans, List.map_append] at horder
  obtain ⟨mid, hfinished, hrest⟩ := horder.split
  obtain ⟨hstop, hlength⟩ := h.stopOf_ge src hbase
  have hmid := hfinished.le
  have hlimit := hrest.le
  obtain ⟨hwhole, hreports⟩ := documents_fit src base s.finished hfinished
  have hwhole : InOrder previous (base + mid)
      (documentSpans (s.finished.map (EventDocument.toRaw src base))) :=
    hwhole.mono_left (by omega)
  have hinside : ReportsInside src.text (s.finished.map (EventDocument.toRaw src base)) :=
    fun d hd => (hreports d hd).mono (by omega) (by omega)
  cases hf : run.failure? with
  | none =>
    rw [hf] at hstop
    simp only [Stream.added, Option.toList_none, List.map_nil, List.append_nil]
    exact ⟨hwhole.mono_right (by omega), hinside⟩
  | some f =>
    obtain ⟨htight, hlast⟩ := hwhole.tight
    rw [documentSpans, List.getLast?_map, Option.map_map] at htight hlast
    obtain ⟨hfailed, hfailedReports⟩ := Stream.failed_fits src hbase h s hf hmid hlast hrest
    rw [hf] at hfailed
    simp only [Stream.added, Option.toList_some, List.map_cons, List.map_nil, documentSpans,
      List.map_append]
    refine ⟨htight.append hfailed, List.forall_mem_append.mpr ⟨hinside, ?_⟩⟩
    exact List.forall_mem_cons.mpr ⟨hfailedReports, by simp⟩

end

/-! ### all runs -/

namespace Assembly

/-- Runs from an offset, behind which there is no document yet, leave documents in order. -/
theorem Runs.documents_inOrder {read : EventSource} {src : Source}
    (hread : ∀ base, (read (src.text.drop base)).StaysWithin (src.text.drop base).length)
    {base : Nat} {c c' : Assembly} {runs : List (Nat × Option Nat)}
    (h : Runs read src base c runs c') :
    c.current = none → base ≤ src.text.length → InOrder 0 base (documentSpans c.documents) →
      ReportsInside src.text c.documents →
      InOrder 0 src.text.length (documentSpans c'.documents)
        ∧ ReportsInside src.text c'.documents := by
  -- one run keeps the invariant, with the offset where reading goes on as the new bound
  have hstep : ∀ {base : Nat} {c c' : Assembly} {resume : Option Nat},
      (takeRun src base (read (src.text.drop base))).run c = .ok resume c' →
      c.current = none → base ≤ src.text.length → InOrder 0 base (documentSpans c.documents) →
      ReportsInside src.text c.documents →
      resume.getD src.text.length ≤ src.text.length ∧ c'.current = none
        ∧ InOrder 0 (resume.getD src.text.length : Nat) (documentSpans c'.documents)
        ∧ ReportsInside src.text c'.documents := by
    intro base c c' resume hrun hidle hbase horder hreports
    obtain ⟨s, hs, rfl, hidle', hdocuments⟩ :=
      takeRun_inv (fun base => (hread base).nested) hidle hrun
    obtain ⟨htight, hlast⟩ := horder.tight
    rw [documentSpans, List.getLast?_map, Option.map_map] at htight hlast
    obtain ⟨hadded, hinside⟩ := Stream.added_inOrder src hbase (hread base) hs hlast
    refine ⟨((hread base).stopOf_ge src hbase).2, hidle', ?_, ?_⟩
    · rw [hdocuments, documentSpans, List.map_append]
      exact htight.append hadded
    · rw [hdocuments]
      exact List.forall_mem_append.mpr ⟨hreports, hinside⟩
  induction h with
  | last hrun =>
    intro hidle hbase horder hreports
    exact (hstep hrun hidle hbase horder hreports).2.2
  | next hrun _ ih =>
    intro hidle hbase horder hreports
    obtain ⟨hbase', hidle', horder', hreports'⟩ := hstep hrun hidle hbase horder hreports
    exact ih hidle' hbase' horder' hreports'

/-- **Loaded documents come one behind the other in the text, and all reports are inside of it.**
That is so for every reader whose runs go forward in their part of the text, after any number of
failures. -/
theorem load_documents_tile (read : EventSource) (tags : TagRegistry) (text : Text)
    (hread : ∀ base, (read (text.drop base)).StaysWithin (text.drop base).length) :
    ∃ documents, load read tags text = .ok documents
      ∧ (∀ d ∈ documents,
        0 ≤ d.span.start ∧ d.span.start ≤ d.span.stop ∧ d.span.stop ≤ text.length)
      ∧ documents.Pairwise (fun a b => a.span.stop ≤ b.span.start)
      ∧ ∀ d ∈ documents, ∀ r ∈ d.diagnostics,
        0 ≤ r.span.start ∧ r.span.start ≤ r.span.stop ∧ r.span.stop ≤ text.length := by
  have hnested := fun base => (hread base).nested
  obtain ⟨runs, c, hruns⟩ := @exists_runs read ⟨text, tags⟩ hnested 0 initial rfl
  obtain ⟨horder, hreports⟩ := hruns.documents_inOrder hread rfl (Nat.zero_le _)
    (Int.le_refl 0) nofun
  refine ⟨c.documents, load_of_runs hnested hruns, fun d hd => ?_, ?_, hreports⟩
  · exact horder.within d.span (List.mem_map_of_mem hd)
  · exact List.pairwise_map.mp horder.pairwise

/-- Wherever reading starts, the sequence that is not closed gives a run that goes forward. -/
theorem cutSequence_staysWithin (base : Nat) :
    (textEvents (cutSequence.drop base)).StaysWithin (cutSequence.drop base).length := by
  have hnested := (cutSequence_orderly base).nested
  match base with
  | 0 => exact ⟨hnested, by decide +kernel, by decide +kernel⟩
  | 1 => exact ⟨hnested, by decide +kernel, by decide +kernel⟩
  | 2 => exact ⟨hnested, by decide +kernel, by decide +kernel⟩
  | 3 => exact ⟨hnested, by decide +kernel, by decide +kernel⟩
  | 4 => exact ⟨hnested, by decide +kernel, by decide +kernel⟩
  | base + 5 =>
    have hnil : cutSequence.drop (base + 5) = [] := List.drop_eq_nil_of_le (by simp [cutSequence])
    rw [hnil] at hnested ⊢
    exact ⟨hnested, by decide +kernel, by decide +kernel⟩

/-- The sequence that is not closed fails, and the next document starts where the failed one
ends. -/
theorem load_documents_tile_cut :
    (∀ base, (textEvents (cutSequence.drop base)).StaysWithin (cutSequence.drop base).length)
      ∧ ∃ documents, load textEvents .empty cutSequence = .ok documents
        ∧ documents.Pairwise (fun a b => a.span.stop ≤ b.span.start) := by
  obtain ⟨documents, hload, -, hapart, -⟩ :=
    load_documents_tile textEvents .empty cutSequence cutSequence_staysWithin
  exact ⟨cutSequence_staysWithin, documents, hload, hapart⟩

end Assembly

end YamlSpan
