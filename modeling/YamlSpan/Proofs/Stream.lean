import Mathlib.Data.List.Forall2
import YamlSpan.Proofs.Interruption
import YamlSpan.Raw.Loading

/-!
# Runs over whole streams

A run reads documents one after the other.  One that is complete ends behind the last, one that
fails may stop anywhere: its events are whole documents, and perhaps the start of one more with
what was read of its root.  Whatever was assembled before, a run adds exactly its own documents.

* `EventRun.IsWellNested`   the runs of a reader of events
* `EventRun.IsOrderly`      those that go forward in the text
* `Stream`                  the documents of a run and what it stopped in
* `Stream.added`            the raw documents that a run adds
* `takeRun_follows`         taking in a run
* `Records`                 which failure a raw document records
-/

namespace YamlSpan

def documentEvents (documents : List EventDocument) : List Event :=
  documents.flatMap EventDocument.events

/-- A run of the events of documents, all of them or cut short by a failure. -/
def EventRun.IsWellNested (run : EventRun) : Prop :=
  ∃ documents : List EventDocument,
    (run.halt = none ∧ run.events = documentEvents documents)
      ∨ ∃ f, run.halt = some (.failure f) ∧ run.events <+: documentEvents documents

def EventRun.failure? (run : EventRun) : Option Failure :=
  match run.halt with
  | some (.failure f) => some f
  | _ => none

/-- Where a run is at each of its events, and then at its failure. -/
def EventRun.places (run : EventRun) : List Int :=
  run.events.map (·.span.start) ++ (run.failure?.bind Failure.index?).toList

/-- A run that goes forward from the start of its text. -/
structure EventRun.IsOrderly (run : EventRun) : Prop where
  nested : run.IsWellNested
  forward : run.places.Pairwise (· ≤ ·)
  nonneg : ∀ event ∈ run.events, event.span.IsNonneg
  index_nonneg : ∀ f index, run.failure? = some f → f.index? = some index → 0 ≤ index

/-- A run of whole documents has no failure to be in order with. -/
theorem EventRun.IsOrderly.of_complete {run : EventRun} (documents : List EventDocument)
    (hrun : run = ⟨documentEvents documents, none⟩)
    (hforward : ((documentEvents documents).map (·.span.start)).Pairwise (· ≤ ·))
    (hnonneg : ∀ event ∈ documentEvents documents, event.span.IsNonneg) : run.IsOrderly := by
  subst hrun
  refine ⟨⟨documents, .inl ⟨rfl, rfl⟩⟩, ?_, hnonneg, nofun⟩
  show List.Pairwise _ (_ ++ [])
  rw [List.append_nil]
  exact hforward

/-- Whole documents, and the start of one more with what was read of its root. -/
structure Stream where
  finished : List EventDocument
  rest : Option (Span × Reading)

def Stream.events (s : Stream) : List Event :=
  documentEvents s.finished
    ++ s.rest.elim [] fun (start, reading) => .documentStart start :: reading.events

/-- The run reads the stream: it stops inside a document only at a failure. -/
structure EventRun.Follows (run : EventRun) (s : Stream) : Prop where
  events : run.events = s.events
  halt : run.halt = run.failure?.map .failure
  complete : run.failure? = none → s.rest = none

/-- What is read of documents is some of them and perhaps a part of the next. -/
theorem exists_stream (documents : List EventDocument) : ∀ {read : List Event},
    read <+: documentEvents documents → ∃ s : Stream, s.events = read := by
  induction documents with
  | nil =>
    intro read h
    exact ⟨⟨[], none⟩, (List.prefix_nil.mp h).symm⟩
  | cons doc documents ih =>
    intro read h
    rcases prefix_append_split h with hdoc | ⟨others, hothers, rfl⟩
    · rcases List.prefix_cons_iff.mp hdoc with rfl | ⟨inside, rfl, hinside⟩
      · exact ⟨⟨[], none⟩, rfl⟩
      · rcases prefix_append_split hinside with hroot | ⟨last, hlast, rfl⟩
        · obtain ⟨r, rfl, _⟩ := exists_reading hroot
          exact ⟨⟨[], some (doc.start, r)⟩, rfl⟩
        · rcases List.prefix_cons_iff.mp hlast with rfl | ⟨none, rfl, hnone⟩
          · exact ⟨⟨[], some (doc.start, .whole doc.root)⟩, by
              simp [Stream.events, documentEvents, Reading.events]⟩
          · rw [List.prefix_nil.mp hnone]
            exact ⟨⟨[doc], Option.none⟩, by
              simp [Stream.events, documentEvents, EventDocument.events]⟩
    · obtain ⟨s, rfl⟩ := ih hothers
      exact ⟨⟨doc :: s.finished, s.rest⟩, by simp [Stream.events, documentEvents]⟩

theorem EventRun.IsWellNested.exists_follows {run : EventRun} (h : run.IsWellNested) :
    ∃ s : Stream, run.Follows s := by
  obtain ⟨documents, ⟨hhalt, hevents⟩ | ⟨f, hhalt, hevents⟩⟩ := h
  · refine ⟨⟨documents, none⟩, ?_, ?_, fun _ => rfl⟩
    · rw [hevents, Stream.events, Option.elim_none, List.append_nil]
    · rw [EventRun.failure?, hhalt]
      rfl
  · obtain ⟨s, hs⟩ := exists_stream documents hevents
    have hfailure : run.failure? = some f := by rw [EventRun.failure?, hhalt]
    refine ⟨s, hs.symm, by rw [hhalt, hfailure]; rfl, fun hnone => ?_⟩
    rw [hfailure] at hnone
    cases hnone

open Assembly

/-- The raw document in which a failure is recorded: the one that was open, or one of its own. -/
def Stream.failed (src : Source) (base previous : Int) (s : Stream) (f : Failure) : RawDocument :=
  match s.rest with
  | some (start, reading) => brokenDocument src base start reading f
  | none => idleDocument src base previous f

/-- The raw documents that a run adds behind documents that end at `previous`. -/
def Stream.added (src : Source) (base previous : Int) (s : Stream) (failure : Option Failure) :
    List RawDocument :=
  let whole := s.finished.map (EventDocument.toRaw src base)
  whole ++ failure.toList.map
    (s.failed src base ((whole.getLast?.map (·.span.stop)).getD previous))

namespace Assembly

variable (src : Source)

theorem lastStop_append (a b : List RawDocument) :
    lastStop (a ++ b) = (b.getLast?.map (·.span.stop)).getD (lastStop a) := by
  unfold lastStop
  rw [List.getLast?_append]
  cases b.getLast? <;> rfl

theorem takeAll_documentEvents (documents : List EventDocument) (c : Assembly)
    (hidle : c.current = none) :
    ∃ c', (takeAll src (documentEvents documents)).run c = .ok () c' ∧ c'.current = none
      ∧ c'.documents = c.documents ++ documents.map (EventDocument.toRaw src c.base)
      ∧ c'.base = c.base := by
  induction documents generalizing c with
  | nil => exact ⟨c, rfl, hidle, (List.append_nil _).symm, rfl⟩
  | cons doc documents ih =>
    obtain ⟨c', htake, hcurrent, hdocuments, hbase⟩ := ih
      ⟨c.documents ++ [doc.toRaw src c.base], none, [], (doc.root.meaning src c.base []).anchors,
        c.base⟩ rfl
    refine ⟨c', ?_, hcurrent, ?_, hbase⟩
    · rw [documentEvents, List.flatMap_cons, takeAll_append_ok src (takeAll_document src c doc)]
      exact htake
    · rw [hdocuments]
      simp

/-- A run from any state without an open document adds its documents and leaves none open. -/
theorem takeRun_follows (base : Nat) {run : EventRun} {s : Stream} (h : run.Follows s)
    (c : Assembly) (hidle : c.current = none) :
    ∃ c', (takeRun src base run).run c = .ok (run.failure?.bind (resumeAt src base)) c'
      ∧ c'.current = none
      ∧ c'.documents = c.documents ++ s.added src base (lastStop c.documents) run.failure? := by
  obtain ⟨c1, htake, hidle1, hdocuments, hbase⟩ :=
    takeAll_documentEvents src s.finished { c with base := base } hidle
  cases hfailure : run.failure? with
  | none =>
    have hrun : (takeRun src base run).run c
        = (takeAll src run.events >>= fun _ => pure none : Action (Option Nat)).run
            { c with base := base } := by
      rw [takeRun, h.halt, hfailure]
      rfl
    rw [hrun, h.events, Stream.events, h.complete hfailure, Option.elim_none, List.append_nil,
      EStateM.run_bind, htake]
    refine ⟨c1, rfl, hidle1, ?_⟩
    rw [hdocuments, Stream.added, Option.toList_none, List.map_nil, List.append_nil]
  | some f =>
    have hprevious : ((s.finished.map (EventDocument.toRaw src base)).getLast?.map
        (·.span.stop)).getD (lastStop c.documents) = lastStop c1.documents := by
      rw [hdocuments, lastStop_append]
    have hrun : (takeRun src base run).run c
        = (takeAll src run.events >>= fun _ => breakOff src f).run { c with base := base } := by
      rw [takeRun, h.halt, hfailure]
      rfl
    rw [hrun, h.events, Stream.events]
    simp only [Option.bind_some, Stream.added, hprevious, Option.toList_some,
      List.map_cons, List.map_nil, Stream.failed]
    cases hrest : s.rest with
    | none =>
      have hbreak := breakOff_idle src f c1 hidle1
      rw [hbase] at hbreak
      refine ⟨⟨c1.documents ++ [idleDocument src base (lastStop c1.documents) f], none, [], [],
        base⟩, ?_, rfl, ?_⟩
      · rw [Option.elim_none, List.append_nil, EStateM.run_bind, htake]
        exact hbreak
      · rw [hdocuments, List.append_assoc]
    | some part =>
      obtain ⟨start, reading⟩ := part
      obtain ⟨anchors, hbreak⟩ := breakOff_reading src f c1 start reading
      rw [hbase] at hbreak
      refine ⟨⟨c1.documents ++ [brokenDocument src base start reading f], none, [], anchors, base⟩,
        ?_, rfl, ?_⟩
      · rw [EStateM.run_bind, Option.elim_some, takeAll_append_ok src htake, ← EStateM.run_bind]
        exact hbreak
      · rw [hdocuments, List.append_assoc]

/-! ### recorded failures -/

/-- A raw document records no failure if its reports are those about its tree, and it records one
if the report about the failure is among those about what is kept of its tree. -/
def Records (d : RawDocument) : Option (Nat × Failure) → Prop
  | none => ∃ (base : Nat) (tree : EventTree),
    d.root = keptRoot src base (some tree) ∧ d.diagnostics = keptReports src base (some tree)
  | some (base, f) => ∃ (kept : Option EventTree) (before after : List RawDiagnostic),
    d.root = keptRoot src base kept ∧ keptReports src base kept = before ++ after
      ∧ d.diagnostics = before ++ failureReport src base f :: after

theorem records_failed (base : Nat) (previous : Int) (s : Stream) (f : Failure) :
    Records src (s.failed src base previous f) (some (base, f)) := by
  unfold Stream.failed
  cases s.rest with
  | none => exact ⟨none, [], [], rfl, rfl, rfl⟩
  | some part =>
    obtain ⟨start, reading⟩ := part
    obtain ⟨after, anchors, hreports, _⟩ :=
      closeAll_reading src base (failureOffset src base f - base) reading
    refine ⟨reading.kept (failureOffset src base f - base), _, after, rfl, hreports, ?_⟩
    simp [brokenDocument, hreports]

/-- The documents of a run record its failure and no other. -/
theorem records_added (base : Nat) (previous : Int) (s : Stream) (failure : Option Failure) :
    List.Forall₂ (Records src) (s.added src base previous failure)
      (s.finished.map (fun _ => none) ++ failure.toList.map fun f => some (base, f)) := by
  refine List.rel_append ?_ ?_
  · rw [List.forall₂_map_left_iff, List.forall₂_map_right_iff, List.forall₂_same]
    exact fun doc _ => ⟨base, doc.root, rfl, rfl⟩
  · rw [List.forall₂_map_left_iff, List.forall₂_map_right_iff, List.forall₂_same]
    exact fun f _ => records_failed src base _ s f

end Assembly

end YamlSpan
