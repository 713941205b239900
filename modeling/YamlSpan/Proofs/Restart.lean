import Mathlib.Data.Finset.Card
import Mathlib.Data.List.ReduceOption
import YamlSpan.Event.Text
import YamlSpan.Proofs.Marker
import YamlSpan.Proofs.Stream

/-!
# Starting again at document markers

Reading a text takes runs, each from where the one before it told to go on.  That is a relation
without a bound on the number of runs.  It ends because a run that fails goes on at a marker behind
its own start, so that there are at most as many further runs as markers; the bound that loading
sets is never reached.

* `Runs`              the runs of a text
* `exists_runs`       there is a last run
* `takeRuns_of_runs`  loading takes all runs
* `Runs.length_le`    how many there are
* `Runs.records`      what they record
-/

namespace YamlSpan

namespace Assembly

/-- The runs from an offset on, each with the place where reading goes on behind it: the next run
starts there, and behind the last run reading does not go on. -/
inductive Runs (read : EventSource) (src : Source) :
    Nat → Assembly → List (Nat × Option Nat) → Assembly → Prop where
  | last {base : Nat} {c c' : Assembly}
      (h : (takeRun src base (read (src.text.drop base))).run c = .ok none c') :
    Runs read src base c [(base, none)] c'
  | next {base resume : Nat} {c c' c'' : Assembly} {runs : List (Nat × Option Nat)}
      (h : (takeRun src base (read (src.text.drop base))).run c = .ok (some resume) c')
      (rest : Runs read src resume c' runs c'') :
    Runs read src base c ((base, some resume) :: runs) c''

def markers (text : Text) : Finset Nat := (Finset.range text.length).filter (MarkerAt text)

/-! ### where reading goes on -/

theorem resumeAt_index (src : Source) (base : Nat) (f : Failure) :
    0 < max (failureOffset src base f) ((base : Int) + 1).toNat := by omega

theorem resumeAt_lt (src : Source) {base i : Nat} {f : Failure} (h : resumeAt src base f = some i) :
    base < i ∧ MarkerAt src.text i := by
  obtain ⟨⟨hle, hm⟩, _⟩ := nextMarker_isLeast src.text (resumeAt_index src base f) h
  exact ⟨by omega, hm⟩

section
variable (src : Source) (base : Nat) (f : Failure)
  (hpos : ∀ index, f.index? = some index → 0 ≤ index)
include hpos

theorem max_failureOffset_le (i : Nat) :
    max (failureOffset src base f) ((base : Int) + 1).toNat ≤ i
      ↔ max (f.offset src.text.length base) (base + 1) ≤ (i : Int) := by
  have hoffset := failureOffset_eq src base f fun index h => by
    have := hpos index h
    omega
  rw [← hoffset]
  omega

/-- Reading goes on at the first marker behind the failure and behind the start of the run. -/
theorem resumeAt_some_iff (i : Nat) :
    resumeAt src base f = some i ↔
      IsLeast {i : Nat | max (f.offset src.text.length base) (base + 1) ≤ (i : Int)
        ∧ MarkerAt src.text i} i := by
  rw [resumeAt, nextMarker_some_iff src.text (resumeAt_index src base f)]
  simp only [max_failureOffset_le src base f hpos]

theorem resumeAt_none_iff :
    resumeAt src base f = none ↔
      ¬ ∃ i : Nat, max (f.offset src.text.length base) (base + 1) ≤ (i : Int)
        ∧ MarkerAt src.text i := by
  rw [resumeAt, nextMarker_none_iff src.text (resumeAt_index src base f)]
  simp only [max_failureOffset_le src base f hpos, not_exists, not_and]

end

/-! ### runs -/

theorem reduceOption_recorded (base : Nat) (s : Stream) (failure : Option Failure) :
    (s.finished.map (fun _ => none) ++ failure.toList.map fun f => some (base, f)).reduceOption
      = (failure.map fun f => (base, f)).toList := by
  rw [List.reduceOption_append]
  cases failure <;> simp [List.reduceOption]

section
variable {read : EventSource} {src : Source}
  (hread : ∀ base, (read (src.text.drop base)).IsWellNested)
include hread

/-- What one run does: it goes on as its failure tells, leaves no document open and adds the
documents of the stream it reads. -/
theorem takeRun_wellNested (base : Nat) (c : Assembly) (hidle : c.current = none) :
    ∃ c' s, (read (src.text.drop base)).Follows s
      ∧ (takeRun src base (read (src.text.drop base))).run c
        = .ok ((read (src.text.drop base)).failure?.bind (resumeAt src base)) c'
      ∧ c'.current = none
      ∧ c'.documents = c.documents
        ++ s.added src base (lastStop c.documents) (read (src.text.drop base)).failure? := by
  obtain ⟨s, hs⟩ := (hread base).exists_follows
  obtain ⟨c', hrun, hcurrent, hdocuments⟩ := takeRun_follows src base hs c hidle
  exact ⟨c', s, hs, hrun, hcurrent, hdocuments⟩

/-- The same for a run whose result is known. -/
theorem takeRun_inv {base : Nat} {c c' : Assembly} {resume : Option Nat} (hidle : c.current = none)
    (hrun : (takeRun src base (read (src.text.drop base))).run c = .ok resume c') :
    ∃ s, (read (src.text.drop base)).Follows s
      ∧ resume = (read (src.text.drop base)).failure?.bind (resumeAt src base)
      ∧ c'.current = none
      ∧ c'.documents = c.documents
        ++ s.added src base (lastStop c.documents) (read (src.text.drop base)).failure? := by
  obtain ⟨c1, s, hs, hrun1, hcurrent, hdocuments⟩ := takeRun_wellNested hread base c hidle
  rw [hrun1] at hrun
  obtain ⟨rfl, rfl⟩ := EStateM.Result.ok.inj hrun
  exact ⟨s, hs, rfl, hcurrent, hdocuments⟩

/-- There is a last run, since each run that goes on does so at a marker behind its start. -/
theorem exists_runs (base : Nat) (c : Assembly) (hidle : c.current = none) :
    ∃ runs c', Runs read src base c runs c' := by
  -- on the length of the text that is left
  induction hn : src.text.length - base using Nat.strong_induction_on generalizing base c with
  | _ n ih =>
    obtain ⟨c', s, _, hrun, hcurrent, _⟩ := takeRun_wellNested hread base c hidle
    cases hresume : (read (src.text.drop base)).failure?.bind (resumeAt src base) with
    | none =>
      rw [hresume] at hrun
      exact ⟨_, c', .last hrun⟩
    | some resume =>
      rw [hresume] at hrun
      obtain ⟨f, _, hf⟩ := Option.bind_eq_some_iff.mp hresume
      obtain ⟨hlt, hm⟩ := resumeAt_lt src hf
      have hlen := hm.lt_length
      obtain ⟨runs, c'', hruns⟩ := ih (src.text.length - resume) (by omega) resume c' hcurrent rfl
      exact ⟨_, c'', .next hrun hruns⟩

/-- Each run goes on as its failure tells. -/
theorem Runs.resume {base : Nat} {c c' : Assembly} {runs : List (Nat × Option Nat)}
    (h : Runs read src base c runs c') (hidle : c.current = none) :
    ∀ run ∈ runs, run.2 = (read (src.text.drop run.1)).failure?.bind (resumeAt src run.1) := by
  induction h with
  | @last base c c' hrun =>
    obtain ⟨_, _, hresume, _⟩ := takeRun_inv hread hidle hrun
    intro run hmem
    rw [List.mem_singleton.mp hmem]
    exact hresume
  | @next base resume c c' c'' runs hrun _ ih =>
    obtain ⟨_, _, hresume, hidle1, _⟩ := takeRun_inv hread hidle hrun
    intro run hmem
    rcases List.mem_cons.mp hmem with rfl | hmem
    · exact hresume
    · exact ih hidle1 run hmem

/-- There is at most one run more than there are markers behind the start of the first. -/
theorem Runs.length_le {base : Nat} {c c' : Assembly} {runs : List (Nat × Option Nat)}
    (h : Runs read src base c runs c') (hidle : c.current = none) :
    runs.length ≤ ((markers src.text).filter (base < ·)).card + 1 := by
  induction h with
  | last _ => simp
  | @next base resume c c' c'' runs hrun _ ih =>
    obtain ⟨_, _, hresume, hidle1, _⟩ := takeRun_inv hread hidle hrun
    obtain ⟨f, _, hf⟩ := Option.bind_eq_some_iff.mp hresume.symm
    obtain ⟨hlt, hm⟩ := resumeAt_lt src hf
    -- the marker at `resume` counts for this run and for none behind it
    have hsub : (markers src.text).filter (resume < ·) ⊂ (markers src.text).filter (base < ·) := by
      rw [Finset.ssubset_iff_of_subset]
      · refine ⟨resume, ?_, ?_⟩
        · rw [Finset.mem_filter, markers, Finset.mem_filter, Finset.mem_range]
          exact ⟨⟨hm.lt_length, hm⟩, hlt⟩
        · rw [Finset.mem_filter]
          exact fun h => lt_irrefl _ h.2
      · intro i hi
        rw [Finset.mem_filter] at hi ⊢
        exact ⟨hi.1, hlt.trans hi.2⟩
    have hcard := Finset.card_lt_card hsub
    have := ih hidle1
    rw [List.length_cons]
    omega

/-- The documents that runs add record their failures, in order. -/
theorem Runs.records {base : Nat} {c c' : Assembly} {runs : List (Nat × Option Nat)}
    (h : Runs read src base c runs c') (hidle : c.current = none) :
    ∃ added recorded, c'.documents = c.documents ++ added
      ∧ List.Forall₂ (Records src) added recorded
      ∧ recorded.reduceOption
        = runs.filterMap fun run => (read (src.text.drop run.1)).failure?.map (run.1, ·) := by
  induction h with
  | @last base c c' hrun =>
    obtain ⟨s, _, _, _, hdocuments⟩ := takeRun_inv hread hidle hrun
    refine ⟨_, _, hdocuments, records_added src base _ s _, ?_⟩
    rw [reduceOption_recorded]
    cases hf : (read (src.text.drop base)).failure? <;> simp [hf]
  | @next base resume c c' c'' runs hrun _ ih =>
    obtain ⟨s, _, _, hidle1, hdocuments⟩ := takeRun_inv hread hidle hrun
    obtain ⟨added, recorded, hadded, hrecords, hfailures⟩ := ih hidle1
    have hall := List.rel_append (records_added src base (lastStop c.documents) s
      (read (src.text.drop base)).failure?) hrecords
    refine ⟨_, _, ?_, hall, ?_⟩
    · rw [hadded, hdocuments, List.append_assoc]
    · rw [List.reduceOption_append, reduceOption_recorded, hfailures]
      cases hf : (read (src.text.drop base)).failure? <;> simp [hf]

end

/-! ### loading -/

/-- A bound that is no less than the number of runs has no effect. -/
theorem takeRuns_of_runs {read : EventSource} {src : Source} {base : Nat} {c c' : Assembly}
    {runs : List (Nat × Option Nat)} (h : Runs read src base c runs c') :
    ∀ fuel, runs.length ≤ fuel → (takeRuns read src fuel base).run c = .ok () c' := by
  induction h with
  | last hrun =>
    intro fuel hfuel
    obtain ⟨fuel, rfl⟩ : ∃ n, fuel = n + 1 := ⟨fuel - 1, by simp at hfuel; omega⟩
    rw [takeRuns, EStateM.run_bind, hrun]
    rfl
  | next hrun _ ih =>
    intro fuel hfuel
    rw [List.length_cons] at hfuel
    obtain ⟨fuel, rfl⟩ : ∃ n, fuel = n + 1 := ⟨fuel - 1, by omega⟩
    rw [takeRuns, EStateM.run_bind, hrun]
    exact ih fuel (by omega)

theorem markers_card_le (text : Text) : (markers text).card ≤ text.length := by
  have h := Finset.card_filter_le (Finset.range text.length) (MarkerAt text)
  rwa [Finset.card_range] at h

theorem markers_behind_zero (text : Text) : (markers text).filter (0 < ·) = markers text := by
  rw [Finset.filter_eq_self]
  intro i hi
  exact (Finset.mem_filter.mp hi).2.pos

/-- Loading gives the documents of the runs. -/
theorem load_of_runs {read : EventSource} {tags : TagRegistry} {text : Text}
    (hread : ∀ base, (read (text.drop base)).IsWellNested) {c : Assembly}
    {runs : List (Nat × Option Nat)} (h : Runs read ⟨text, tags⟩ 0 initial runs c) :
    load read tags text = .ok c.documents := by
  have hlength := h.length_le hread rfl
  rw [markers_behind_zero] at hlength
  have hcard : (markers (Source.mk text tags).text).card ≤ text.length := markers_card_le text
  rw [load, takeRuns_of_runs h (text.length + 1) (by omega)]

/-- **Loading ends, and starts again at document markers only.**  There are runs up to a last one,
and loading gives their documents.  A run without a failure is the last.  One with a failure goes on
at the least marker that is at or behind the failure and behind the start of the run, and it is the
last exactly if there is none.  There is at most one run more than markers, and the failures that
documents record are those of the runs, one each and in order. -/
theorem load_ends_at_markers (read : EventSource) (tags : TagRegistry) (text : Text)
    (hread : ∀ base, (read (text.drop base)).IsWellNested)
    (hpos : ∀ base f, (read (text.drop base)).failure? = some f →
      ∀ index, f.index? = some index → 0 ≤ index) :
    ∃ runs c recorded,
      Runs read ⟨text, tags⟩ 0 initial runs c
      ∧ load read tags text = .ok c.documents
      ∧ (∀ run ∈ runs, (read (text.drop run.1)).failure? = none → run.2 = none)
      ∧ (∀ run ∈ runs, ∀ f, (read (text.drop run.1)).failure? = some f →
        let least : Int := max (f.offset text.length run.1) (run.1 + 1)
        (∀ i, run.2 = some i ↔ IsLeast {i : Nat | least ≤ i ∧ MarkerAt text i} i)
        ∧ (run.2 = none ↔ ¬ ∃ i : Nat, least ≤ i ∧ MarkerAt text i)
        ∧ ∀ i, run.2 = some i → run.1 < i ∧ i < text.length)
      ∧ runs.length ≤ (markers text).card + 1
      ∧ List.Forall₂ (Records ⟨text, tags⟩) c.documents recorded
      ∧ recorded.reduceOption
        = runs.filterMap fun run => (read (text.drop run.1)).failure?.map (run.1, ·) := by
  obtain ⟨runs, c, hruns⟩ := @exists_runs read ⟨text, tags⟩ hread 0 initial rfl
  obtain ⟨added, recorded, hadded, hrecords, hfailures⟩ := hruns.records hread rfl
  have hlength := hruns.length_le hread rfl
  rw [markers_behind_zero] at hlength
  have hresume := hruns.resume hread rfl
  refine ⟨runs, c, recorded, hruns, load_of_runs hread hruns, ?_, ?_, hlength, ?_, hfailures⟩
  · intro run hrun hf
    rw [hresume run hrun, hf]
    rfl
  · intro run hrun f hf least
    have hindex := hpos run.1 f hf
    have hnext : run.2 = resumeAt ⟨text, tags⟩ run.1 f := by
      rw [hresume run hrun, hf]
      rfl
    rw [hnext]
    refine ⟨resumeAt_some_iff ⟨text, tags⟩ run.1 f hindex,
      resumeAt_none_iff ⟨text, tags⟩ run.1 f hindex, fun i hi => ?_⟩
    obtain ⟨hlt, hm⟩ := resumeAt_lt ⟨text, tags⟩ hi
    exact ⟨hlt, hm.lt_length⟩
  · rw [hadded]
    exact hrecords

/-- A sequence that is not closed, and the marker of the next document. -/
def cutSequence : Text := [.char '[', .char '\n', .char '-', .char '-', .char '-']

/-- Wherever reading starts, the events of the text are in order. -/
theorem cutSequence_orderly (base : Nat) : (textEvents (cutSequence.drop base)).IsOrderly := by
  match base with
  | 0 =>
    have hrun : textEvents cutSequence
        = ⟨[.documentStart ⟨0, 0⟩, .sequenceStart ⟨0, 1⟩ none none], some (.failure (.ofProblem
            "expected the node content, but found '<document start>'"
            ⟨"<unicode string>", 2, 1, 0⟩))⟩ := by decide +kernel
    rw [List.drop_zero, hrun]
    refine ⟨⟨[⟨⟨0, 0⟩, .sequence ⟨0, 1⟩ none none [] ⟨2, 2⟩, ⟨2, 2⟩⟩], .inr ⟨_, rfl, by decide⟩⟩,
      by decide, by decide, ?_⟩
    rintro f index ⟨⟩ ⟨⟩
    decide
  | 1 =>
    exact .of_complete [⟨⟨1, 4⟩, .leftOut 4, ⟨4, 4⟩⟩] (by decide +kernel) (by decide) (by decide)
  | 2 =>
    exact .of_complete [⟨⟨0, 3⟩, .leftOut 3, ⟨3, 3⟩⟩] (by decide +kernel) (by decide) (by decide)
  | 3 =>
    exact .of_complete [⟨⟨0, 0⟩, .scalar ⟨0, 2⟩ [.char '-', .char '-'] true none none, ⟨2, 2⟩⟩]
      (by decide +kernel) (by decide) (by decide)
  | 4 =>
    exact .of_complete [⟨⟨0, 0⟩, .sequence ⟨0, 0⟩ none none [.leftOut 1] ⟨1, 1⟩, ⟨1, 1⟩⟩]
      (by decide +kernel) (by decide) (by decide)
  | base + 5 =>
    have hnil : cutSequence.drop (base + 5) = [] := List.drop_eq_nil_of_le (by simp [cutSequence])
    rw [hnil]
    exact .of_complete [] (by decide +kernel) (by decide) (by decide)

/-- Loading this text takes at most two runs, since it has one marker. -/
theorem load_ends_at_cut :
    (∀ base, (textEvents (cutSequence.drop base)).IsWellNested)
      ∧ (∀ base f, (textEvents (cutSequence.drop base)).failure? = some f →
        ∀ index, f.index? = some index → 0 ≤ index)
      ∧ MarkerAt cutSequence 2
      ∧ ∃ runs c, Runs textEvents ⟨cutSequence, .empty⟩ 0 initial runs c
        ∧ load textEvents .empty cutSequence = .ok c.documents ∧ runs.length ≤ 2 := by
  have hread := fun base => (cutSequence_orderly base).nested
  have hpos := fun base f h index => (cutSequence_orderly base).index_nonneg f index h
  obtain ⟨runs, c, recorded, hruns, hload, -, -, hlength, -⟩ :=
    load_ends_at_markers textEvents .empty cutSequence hread hpos
  have hcard : (markers cutSequence).card = 1 := by decide
  rw [hcard] at hlength
  exact ⟨hread, hpos, by decide, runs, c, hruns, hload, hlength⟩

end Assembly

end YamlSpan
