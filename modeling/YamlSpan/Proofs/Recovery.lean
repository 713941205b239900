import YamlSpan.Proofs.Restart
import YamlSpan.Proofs.Shift

/-!
# Recovery depends on the rest of a text alone

After a failure, reading goes on at a marker.  From there on, whatever was read before has one trace
only: the end of the failed document, which is that marker.  So the runs over the rest of the text,
started with nothing, and the runs of the whole text from the marker on go side by side, and the
documents of the second are those of the first, moved.

* `takeRun_shift`       one run over the rest, seen from the whole text
* `Runs.shift`          all of them
* `Reached`             where reading goes on, with what has been assembled
* `load_after_failure`  loading after a failure is loading the rest
-/

namespace YamlSpan

open Assembly

/-! ### failures in the rest of a text -/

/-- A failure is not in front of the text that its run reads. -/
theorem Assembly.failureOffset_ge (src : Source) {base : Nat} (hbase : base ≤ src.text.length)
    {f : Failure} (hf : ∀ index, f.index? = some index → 0 ≤ index) :
    0 ≤ (failureOffset src base f : Int) - base := by
  unfold failureOffset
  cases hindex : f.index? with
  | none =>
    simp only
    omega
  | some index =>
    have := hf index hindex
    simp only
    omega

section
variable (src : Source) {o : Nat} (ho : o ≤ src.text.length) (base : Nat) {f : Failure}
  (hf : ∀ index, f.index? = some index → 0 ≤ index)
include ho hf

theorem Assembly.failureOffset_shift :
    failureOffset src (o + base) f = o + failureOffset (src.drop o) base f := by
  unfold failureOffset
  cases hindex : f.index? with
  | none =>
    simp only [src.length_drop o]
    omega
  | some index =>
    have := hf index hindex
    simp only [src.length_drop o]
    omega

theorem Assembly.resumeAt_shift :
    resumeAt src (o + base) f = (resumeAt (src.drop o) base f).map (o + ·) := by
  have hmax : max (failureOffset src (o + base) f) ((o : Int) + base + 1).toNat
      = o + max (failureOffset (src.drop o) base f) ((base : Int) + 1).toNat := by
    rw [failureOffset_shift src ho base hf]
    omega
  rw [resumeAt, hmax, nextMarker_drop src.text o (resumeAt_index (src.drop o) base f)]
  rfl

theorem failureReport_shift :
    failureReport src (o + base) f = (failureReport (src.drop o) base f).shift o := by
  rw [failureReport, failureOffset_shift src ho base hf, lineStop_drop, Int.natCast_add,
    Int.natCast_add]
  rfl

/-- The end of a failed document moves with its start. -/
theorem Assembly.failedStop_shift (start : Int) :
    max ((resumeAt src (o + base) f).getD src.text.length : Int) (o + start)
      = o + max ((resumeAt (src.drop o) base f).getD (src.drop o).text.length : Int) start := by
  rw [resumeAt_shift src ho base hf, src.length_drop o]
  cases resumeAt (src.drop o) base f with
  | none =>
    simp only [Option.map_none, Option.getD_none]
    omega
  | some resume =>
    simp only [Option.map_some, Option.getD_some]
    omega

theorem Assembly.idleDocument_shift (previous : Int) :
    idleDocument src (o + base) (o + previous) f
      = (idleDocument (src.drop o) base previous f).shift o := by
  have hstart : min ((o : Int) + previous) (failureOffset src (o + base) f)
      = o + min previous (failureOffset (src.drop o) base f) := by
    rw [failureOffset_shift src ho base hf]
    omega
  rw [idleDocument, hstart, failedStop_shift src ho base hf, failureReport_shift src ho base hf]
  rfl

end

/-! ### what is kept -/

theorem AnchorsNonneg.nil : AnchorsNonneg [] := nofun

theorem Reading.kept_nonneg {place : Int} (hplace : 0 ≤ place) (r : Reading)
    (h : ∀ event ∈ r.events, event.span.IsNonneg) :
    ∀ tree, r.kept place = some tree → ∀ event ∈ tree.events, event.span.IsNonneg := by
  intro tree hkept
  cases r with
  | whole whole =>
    obtain rfl := Option.some.inj hkept
    exact h
  | part layers =>
    obtain ⟨closing, hevents, hcloses⟩ := layerTree_events place layers
    rw [show layerTree place layers = some tree from hkept, Option.elim_some] at hevents
    rw [hevents]
    refine List.forall_mem_append.mpr ⟨h, fun event hevent => ?_⟩
    rcases hcloses event hevent with rfl | rfl | rfl <;> exact ⟨hplace, hplace⟩

section
variable (src : Source) {o : Nat} (ho : o ≤ src.text.length) (base : Nat)
  {kept : Option EventTree}
  (h : ∀ tree, kept = some tree → ∀ event ∈ tree.events, event.span.IsNonneg)

include h in
theorem keptRoot_nonneg : AllSpans? Span.IsNonneg (keptRoot src base kept) := by
  cases kept with
  | none => trivial
  | some tree =>
    exact (tree.meaning_nonneg src (Int.natCast_nonneg base) .nil (h tree rfl)).1.2

include ho h

theorem keptRoot_shift :
    keptRoot src (o + base) kept = shift? o (keptRoot (src.drop o) base kept) := by
  cases kept with
  | none => rfl
  | some tree =>
    have hmove := tree.meaning_shift src ho (Int.natCast_nonneg base) .nil (h tree rfl)
    exact congrArg (·.value.node) hmove

theorem keptReports_shift :
    keptReports src (o + base) kept
      = (keptReports (src.drop o) base kept).map (RawDiagnostic.shift o) := by
  cases kept with
  | none => rfl
  | some tree =>
    have hmove := tree.meaning_shift src ho (Int.natCast_nonneg base) .nil (h tree rfl)
    exact congrArg (·.reports) hmove

end

/-! ### documents -/

section
variable (src : Source) {o : Nat} (ho : o ≤ src.text.length) (base : Nat)

theorem EventDocument.toRaw_nonneg (d : EventDocument)
    (h : ∀ event ∈ d.events, event.span.IsNonneg) :
    AllSpans? Span.IsNonneg (d.toRaw src base).root := by
  have hroot := (List.forall_mem_append.mp (List.forall_mem_cons.mp h).2).1
  exact (d.root.meaning_nonneg src (Int.natCast_nonneg base) .nil hroot).1.2

include ho

theorem EventDocument.toRaw_shift (d : EventDocument)
    (h : ∀ event ∈ d.events, event.span.IsNonneg) :
    d.toRaw src (o + base) = (d.toRaw (src.drop o) base).shift o := by
  have hroot := (List.forall_mem_append.mp (List.forall_mem_cons.mp h).2).1
  have hmove := d.root.meaning_shift src ho (Int.natCast_nonneg base) .nil hroot
  rw [toRaw, collectionSpan_shift, show ([] : List (String × RawNode)) = shiftAnchors o [] from rfl,
    hmove]
  rfl

theorem Reading.reached_shift (r : Reading) (h : ∀ event ∈ r.events, event.span.IsNonneg) :
    (r.reached src (o + base)).reports
      = (r.reached (src.drop o) base).reports.map (RawDiagnostic.shift o) := by
  cases r with
  | part layers => exact layerStack_shift src ho (Int.natCast_nonneg base) layers .nil h
  | whole tree =>
    have hmove := tree.meaning_shift src ho (Int.natCast_nonneg base) .nil h
    exact congrArg (·.reports) hmove

theorem Assembly.brokenDocument_shift (hbase : base ≤ (src.drop o).text.length) {f : Failure}
    (hf : ∀ index, f.index? = some index → 0 ≤ index) (start : Span) (r : Reading)
    (h : ∀ event ∈ r.events, event.span.IsNonneg) :
    brokenDocument src (o + base) start r f
      = (brokenDocument (src.drop o) base start r f).shift o := by
  have hplace : (failureOffset src (o + base) f : Int) - (o + base)
      = failureOffset (src.drop o) base f - base := by
    rw [failureOffset_shift src ho base hf]
    omega
  have hkept := r.kept_nonneg (failureOffset_ge (src.drop o) hbase hf) h
  rw [brokenDocument, hplace, r.reached_shift src ho base h, keptRoot_shift src ho base hkept,
    keptReports_shift src ho base hkept, failureReport_shift src ho base hf, Int.add_assoc,
    failedStop_shift src ho base hf, List.length_map, ← List.map_drop]
  simp only [brokenDocument, RawDocument.shift, List.map_append, List.map_cons]
  rfl

end

/-! ### runs -/

theorem Stream.finished_events {s : Stream} {d : EventDocument} (hd : d ∈ s.finished)
    {event : Event} (h : event ∈ d.events) : event ∈ s.events :=
  List.mem_append_left _ (List.mem_flatMap.mpr ⟨d, hd, h⟩)

theorem Stream.rest_events {s : Stream} {start : Span} {r : Reading} (hr : s.rest = some (start, r))
    {event : Event} (h : event ∈ .documentStart start :: r.events) : event ∈ s.events := by
  rw [Stream.events, hr]
  exact List.mem_append_right _ h

theorem Assembly.lastStop_shift (o : Int) (documents : List RawDocument) (previous : Int) :
    ((documents.map (RawDocument.shift o)).getLast?.map (·.span.stop)).getD (o + previous)
      = o + (documents.getLast?.map (·.span.stop)).getD previous := by
  rw [List.getLast?_map]
  cases documents.getLast? <;> rfl

section
variable (src : Source) {o : Nat} (ho : o ≤ src.text.length) {base : Nat} {s : Stream}
  (hs : ∀ event ∈ s.events, event.span.IsNonneg) {failure : Option Failure}
  (hfailure : ∀ f index, failure = some f → f.index? = some index → 0 ≤ index)
include hs hfailure

/-- The documents that a run adds have no span in front of the text. -/
theorem Stream.added_nonneg (hbase : base ≤ src.text.length) (previous : Int) :
    ∀ d ∈ s.added src base previous failure, AllSpans? Span.IsNonneg d.root := by
  refine List.forall_mem_append.mpr ⟨?_, ?_⟩
  · refine List.forall_mem_map.mpr fun d hd => ?_
    exact d.toRaw_nonneg src base fun event h => hs event (finished_events hd h)
  · refine List.forall_mem_map.mpr fun f hf => ?_
    rw [Stream.failed]
    split
    · rename_i start r hr
      have hplace := failureOffset_ge src hbase fun index =>
        hfailure f index (Option.mem_toList.mp hf)
      exact keptRoot_nonneg src base (r.kept_nonneg hplace fun event h =>
        hs event (rest_events hr (List.mem_cons_of_mem _ h)))
    · trivial

include ho

/-- The documents that a run adds move with the text. -/
theorem Stream.added_shift (hbase : base ≤ (src.drop o).text.length) (previous : Int) :
    s.added src (o + base) (o + previous) failure
      = (s.added (src.drop o) base previous failure).map (RawDocument.shift o) := by
  have hwhole : s.finished.map (EventDocument.toRaw src (o + base))
      = (s.finished.map (EventDocument.toRaw (src.drop o) base)).map (RawDocument.shift o) := by
    rw [List.map_map]
    refine List.map_congr_left fun d hd => ?_
    exact d.toRaw_shift src ho base fun event h => hs event (finished_events hd h)
  simp only [Stream.added, hwhole, lastStop_shift, List.map_append]
  rw [List.append_cancel_left_eq, List.map_map]
  refine List.map_congr_left fun f hf => ?_
  have hindex := fun index => hfailure f index (Option.mem_toList.mp hf)
  show s.failed src _ _ f = (s.failed (src.drop o) base _ f).shift o
  rw [Stream.failed, Stream.failed]
  split
  · rename_i start r hr
    exact brokenDocument_shift src ho base hbase hindex start r fun event h =>
      hs event (rest_events hr (List.mem_cons_of_mem _ h))
  · exact idleDocument_shift src ho base hindex _

end

/-- One run over the rest of a text, from any state without an open document, and the same run seen
from the whole text: both go on in the same place and add the same documents. -/
theorem Assembly.takeRun_shift (src : Source) {o : Nat} (ho : o ≤ src.text.length) {base : Nat}
    (hbase : base ≤ (src.drop o).text.length) {run : EventRun} (h : run.IsOrderly)
    {c d : Assembly} (hc : c.current = none) (hd : d.current = none)
    (hstop : lastStop d.documents = o + lastStop c.documents) :
    ∃ resume c' d' added,
      (takeRun (src.drop o) base run).run c = .ok resume c'
      ∧ (takeRun src (o + base) run).run d = .ok (resume.map (o + ·)) d'
      ∧ (c'.current = none ∧ c'.documents = c.documents ++ added)
      ∧ (d'.current = none ∧ d'.documents = d.documents ++ added.map (RawDocument.shift o))
      ∧ (∀ x ∈ added, AllSpans? Span.IsNonneg x.root)
      ∧ ∀ i, resume = some i → i ≤ (src.drop o).text.length := by
  obtain ⟨s, hs⟩ := h.nested.exists_follows
  have hevents : ∀ event ∈ s.events, event.span.IsNonneg := by
    rw [← hs.events]
    exact h.nonneg
  obtain ⟨c', hcrun, hc', hcdocuments⟩ := takeRun_follows (src.drop o) base hs c hc
  obtain ⟨d', hdrun, hd', hddocuments⟩ := takeRun_follows src (o + base) hs d hd
  have hmove := Stream.added_shift src ho hevents h.index_nonneg hbase (lastStop c.documents)
  have hresume : run.failure?.bind (resumeAt src (o + base))
      = (run.failure?.bind (resumeAt (src.drop o) base)).map (o + ·) := by
    cases hf : run.failure? with
    | none => rfl
    | some f => exact resumeAt_shift src ho base fun index => h.index_nonneg f index hf
  rw [Int.natCast_add, hresume] at hdrun
  rw [Int.natCast_add, hstop, hmove] at hddocuments
  refine ⟨_, c', d', _, hcrun, hdrun, ⟨hc', hcdocuments⟩, ⟨hd', hddocuments⟩,
    Stream.added_nonneg (src.drop o) hevents h.index_nonneg hbase _, fun i hi => ?_⟩
  obtain ⟨f, _, hf⟩ := Option.bind_eq_some_iff.mp hi
  exact (resumeAt_lt (src.drop o) hf).2.lt_length.le

namespace Assembly

/-- The runs over the rest of a text and those of the whole text go side by side. -/
theorem Runs.shift {read : EventSource} {src : Source} {o : Nat} (ho : o ≤ src.text.length)
    (hread : ∀ base, (read (src.text.drop base)).IsOrderly) {base : Nat} {c c' : Assembly}
    {runs : List (Nat × Option Nat)} (h : Runs read (src.drop o) base c runs c') :
    ∀ {d : Assembly}, base ≤ (src.drop o).text.length → c.current = none → d.current = none →
      lastStop d.documents = o + lastStop c.documents →
      ∃ runs' d' added, Runs read src (o + base) d runs' d'
        ∧ c'.documents = c.documents ++ added
        ∧ d'.documents = d.documents ++ added.map (RawDocument.shift o)
        ∧ ∀ x ∈ added, AllSpans? Span.IsNonneg x.root := by
  have hdrop : ∀ base, (src.drop o).text.drop base = src.text.drop (o + base) :=
    fun _ => List.drop_drop
  -- of what is before a run only the end of the last document counts, so that is the invariant
  induction h with
  | @last base c c' hrun =>
    intro d hbase hc hd hstop
    obtain ⟨resume, c1, d1, added, hcrun, hdrun, ⟨_, hcdocuments⟩, ⟨_, hddocuments⟩, hnonneg, _⟩ :=
      takeRun_shift src ho hbase (hread (o + base)) hc hd hstop
    rw [hdrop, hcrun] at hrun
    obtain ⟨rfl, rfl⟩ := EStateM.Result.ok.inj hrun
    exact ⟨_, d1, added, .last hdrun, hcdocuments, hddocuments, hnonneg⟩
  | @next base resume c c' c'' runs hrun _ ih =>
    intro d hbase hc hd hstop
    obtain ⟨resume', c1, d1, added, hcrun, hdrun, ⟨hc1, hcdocuments⟩, ⟨hd1, hddocuments⟩, hnonneg,
      hle⟩ := takeRun_shift src ho hbase (hread (o + base)) hc hd hstop
    rw [hdrop, hcrun] at hrun
    obtain ⟨rfl, rfl⟩ := EStateM.Result.ok.inj hrun
    have hstop1 : lastStop d1.documents = o + lastStop c1.documents := by
      rw [hcdocuments, hddocuments, lastStop_append, lastStop_append, hstop, lastStop_shift]
    obtain ⟨runs', d', more, hruns, hcmore, hdmore, hnonneg'⟩ := ih (hle _ rfl) hc1 hd1 hstop1
    refine ⟨_, d', added ++ more, .next hdrun hruns, ?_, ?_, List.forall_mem_append.mpr
      ⟨hnonneg, hnonneg'⟩⟩
    · rw [hcmore, hcdocuments, List.append_assoc]
    · rw [hdmore, hddocuments, List.map_append, List.append_assoc]

/-! ### where reading goes on -/

/-- Reading goes on at an offset after all runs before it failed. -/
inductive Reached (read : EventSource) (src : Source) : Nat → Assembly → Prop where
  | start : Reached read src 0 initial
  | next {base resume : Nat} {c c' : Assembly} (before : Reached read src base c)
      (h : (takeRun src base (read (src.text.drop base))).run c = .ok (some resume) c') :
    Reached read src resume c'

theorem Reached.runs {read : EventSource} {src : Source} {o : Nat} {c : Assembly}
    (h : Reached read src o c) : ∀ {runs : List (Nat × Option Nat)} {c' : Assembly},
      Runs read src o c runs c' → ∃ all, Runs read src 0 initial all c' := by
  induction h with
  | start =>
    intro runs c' hruns
    exact ⟨runs, hruns⟩
  | next _ hrun ih =>
    intro runs c' hruns
    exact ih (.next hrun hruns)

/-- A failed document ends where reading goes on, since it did not start behind its failure. -/
theorem failed_stop (src : Source) (base : Nat) {run : EventRun} (h : run.IsOrderly) {s : Stream}
    (hs : run.Follows s) {f : Failure} (hf : run.failure? = some f) {resume : Nat}
    (hresume : resumeAt src base f = some resume) (previous : Int) :
    (s.failed src base previous f).span.stop = resume := by
  obtain ⟨⟨hle, hm⟩, _⟩ := nextMarker_isLeast src.text (resumeAt_index src base f) hresume
  have hlt := hm.lt_length
  rw [Stream.failed]
  cases hrest : s.rest with
  | none =>
    show max ((resumeAt src base f).getD _ : Int) (min previous (failureOffset src base f)) = resume
    rw [hresume, Option.getD_some]
    omega
  | some part =>
    obtain ⟨start, r⟩ := part
    show max ((resumeAt src base f).getD _ : Int) (base + start.start) = resume
    rw [hresume, Option.getD_some]
    have hoffset := failureOffset_eq src base f fun index hindex => by
      have := h.index_nonneg f index hf hindex
      omega
    unfold Failure.offset at hoffset
    cases hindex : f.index? with
    | none =>
      simp only [hindex] at hoffset
      omega
    | some index =>
      simp only [hindex] at hoffset
      -- the document starts at an event before the failure
      have hforward := h.forward
      rw [EventRun.places, hf, Option.bind_some, hindex, List.pairwise_append] at hforward
      have hmem : Event.documentStart start ∈ run.events := by
        rw [hs.events]
        exact Stream.rest_events hrest List.mem_cons_self
      have hstart := hforward.2.2 _ (List.mem_map_of_mem hmem) index List.mem_cons_self
      have hspan : (Event.documentStart start).span.start = start.start := rfl
      omega

/-- Where reading goes on, the last document ends and none is open. -/
theorem Reached.lastStop {read : EventSource} {src : Source}
    (hread : ∀ base, (read (src.text.drop base)).IsOrderly) {o : Nat} {c : Assembly}
    (h : Reached read src o c) :
    c.current = none ∧ Assembly.lastStop c.documents = o ∧ o ≤ src.text.length := by
  induction h with
  | start => exact ⟨rfl, rfl, Nat.zero_le _⟩
  | @next base resume c c' _ hrun ih =>
    obtain ⟨s, hs, hresume, hidle, hdocuments⟩ :=
      takeRun_inv (fun base => (hread base).nested) ih.1 hrun
    obtain ⟨f, hf, hresume⟩ := Option.bind_eq_some_iff.mp hresume.symm
    refine ⟨hidle, ?_, (resumeAt_lt src hresume).2.lt_length.le⟩
    rw [hdocuments, lastStop_append, Stream.added, hf, Option.toList_some, List.map_singleton,
      List.getLast?_concat]
    exact failed_stop src base (hread base) hs hf hresume _

/-- **Loading after a failure is loading the rest of the text.**  Whenever runs failed and reading
goes on at an offset, loading gives the documents so far and then those of the rest of the text
loaded on its own, moved by the offset.  Their trees, values and reports are the same but for their
spans, and so are the texts of their keys. -/
theorem load_after_failure (read : EventSource) (tags : TagRegistry) (text : Text)
    (hread : ∀ base, (read (text.drop base)).IsOrderly) (o : Nat) (c : Assembly)
    (h : Reached read ⟨text, tags⟩ o c) :
    ∃ rest, load read tags (text.drop o) = .ok rest
      ∧ load read tags text = .ok (c.documents ++ rest.map (RawDocument.shift o))
      ∧ ∀ d ∈ rest, keyTexts? text (d.shift o).root = keyTexts? (text.drop o) d.root := by
  obtain ⟨hidle, hstop, ho⟩ := h.lastStop hread
  have hrest : ∀ base, (read ((text.drop o).drop base)).IsWellNested := fun base => by
    rw [List.drop_drop]
    exact (hread (o + base)).nested
  obtain ⟨runs, c', hruns⟩ : ∃ runs c', Runs read (Source.drop o ⟨text, tags⟩) 0 initial runs c' :=
    exists_runs hrest 0 initial rfl
  have hload : load read tags (text.drop o) = .ok c'.documents := load_of_runs hrest hruns
  obtain ⟨runs', d', added, hruns', hadded, hdocuments, hnonneg⟩ :=
    hruns.shift ho hread (Nat.zero_le _) rfl hidle hstop
  obtain ⟨all, hall⟩ := h.runs hruns'
  have hwhole := load_of_runs (fun base => (hread base).nested) hall
  obtain rfl : c'.documents = added := hadded
  refine ⟨c'.documents, hload, ?_, fun d hd => ?_⟩
  · rw [hwhole, hdocuments]
  · exact keyTexts?_shift ho d.root (hnonneg d hd)

/-- The sequence that is not closed fails at the marker, and the rest is loaded from there. -/
theorem load_after_cut :
    (∀ base, (textEvents (cutSequence.drop base)).IsOrderly)
      ∧ ∃ c rest, Reached textEvents ⟨cutSequence, .empty⟩ 2 c
        ∧ load textEvents .empty (cutSequence.drop 2) = .ok rest
        ∧ load textEvents .empty cutSequence
          = .ok (c.documents ++ rest.map (RawDocument.shift 2)) := by
  have hread : ∀ base, (textEvents ((Source.mk cutSequence .empty).text.drop base)).IsWellNested :=
    fun base => (cutSequence_orderly base).nested
  obtain ⟨c, s, _, hrun, _⟩ := takeRun_wellNested hread 0 initial rfl
  have hresume : (textEvents (cutSequence.drop 0)).failure?.bind
      (resumeAt ⟨cutSequence, .empty⟩ (0 : Nat)) = some 2 := by decide +kernel
  have hreached : Reached textEvents ⟨cutSequence, .empty⟩ 2 c := .next .start (by
    rw [← hresume]
    exact hrun)
  obtain ⟨rest, hrest, hload, _⟩ :=
    load_after_failure textEvents .empty cutSequence cutSequence_orderly 2 c hreached
  exact ⟨cutSequence_orderly, c, rest, hreached, hrest, hload⟩

end Assembly

end YamlSpan
