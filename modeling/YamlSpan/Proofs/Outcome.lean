import YamlSpan.Parse
import YamlSpan.Proofs.Grammar
import YamlSpan.Proofs.Recovery

/-!
# What becomes of every text

A text is read in runs, and each run gives nested events up to its end, to a failure or to a fault.
So loading takes all runs up to the first that meets a fault.  If there is none, documents are
returned, and each failure is an error of one of them; else nothing is returned but the fault, which
takes a percent sign or a backslash in the text.

* `textEvents_reads`           the events of a text
* `EventSource.quiet`          a reader that ends where another one meets a fault
* `load_or_fault`              loading, for every reader of nested events
* `parse_reports_or_faults`    parsing, for every text
-/

namespace YamlSpan

open Assembly

/-! ### the events of a text -/

theorem Text.mem_chars {c : Char} {text : Text} : c ∈ text.chars ↔ .char c ∈ text := by
  rw [Text.chars, List.mem_filterMap]
  constructor
  · rintro ⟨point, hmem, hchar⟩
    cases point with
    | char c' =>
      obtain rfl : c' = c := Option.some.inj hchar
      exact hmem
    | surrogate => cases hchar
  · intro hmem
    exact ⟨.char c, hmem, rfl⟩

theorem unreadable_isOf (text : List Char) (c : CodePoint) (index : Nat) :
    (Halt.failure (unreadable c index)).IsOf text := by
  intro (heq : Failure.reason _ = duplicateKey)
  have hapart : ¬ (Failure.reason (unreadable c index)).toList <+: duplicateKey.toList :=
    apart_append (apart_append (apart_append (apart_append (apart_append
      (by decide +kernel)))))
  exact hapart (heq ▸ List.prefix_rfl)

/-- A run of the events of documents, whatever stops it. -/
def EventRun.IsNested (run : EventRun) : Prop :=
  ∃ documents, run.events <+: documentEvents documents
    ∧ (run.halt = none → run.events = documentEvents documents)

/-- The events of a text are nested, and only the text stops them. -/
theorem textEvents_reads (text : Text) :
    (textEvents text).IsNested
      ∧ ∀ halt, (textEvents text).halt = some halt → halt.IsOf text.chars := by
  unfold textEvents
  split
  · refine ⟨⟨[], List.nil_prefix, nofun⟩, ?_⟩
    rintro _ ⟨⟩
    exact unreadable_isOf _ _ _
  · obtain ⟨hhalt, hevents⟩ := readEvents_reads (lex_isOf text.chars)
    exact ⟨hevents, hhalt⟩

theorem EventRun.halt_of_failure {run : EventRun} {f : Failure} (h : run.failure? = some f) :
    run.halt = some (.failure f) := by
  unfold EventRun.failure? at h
  split at h
  · rename_i hhalt
    rw [hhalt, Option.some.inj h]
  · cases h

/-! ### readers that meet no fault -/

/-- The reader that gives nothing where the given one meets a fault. -/
def EventSource.quiet (read : EventSource) : EventSource := fun text =>
  match (read text).halt with
  | some (.fault _) => ⟨[], none⟩
  | _ => read text

section
variable {read : EventSource} {text : Text}

theorem EventSource.quiet_of_fault {fault : Fault} (h : (read text).halt = some (.fault fault)) :
    read.quiet text = ⟨[], none⟩ := by
  rw [EventSource.quiet, h]

theorem EventSource.quiet_of_no_fault (h : ∀ fault, (read text).halt ≠ some (.fault fault)) :
    read.quiet text = read text := by
  unfold EventSource.quiet
  split
  · rename_i fault hfault
    exact absurd hfault (h fault)
  · rfl

theorem EventSource.quiet_failure? : (read.quiet text).failure? = (read text).failure? := by
  unfold EventSource.quiet
  split
  · rename_i fault hfault
    rw [EventRun.failure?, EventRun.failure?, hfault]
  · rfl

theorem EventSource.quiet_wellNested (h : (read text).IsNested) :
    (read.quiet text).IsWellNested := by
  obtain ⟨documents, hprefix, hall⟩ := h
  unfold EventSource.quiet
  split
  · exact ⟨[], .inl ⟨rfl, rfl⟩⟩
  · rename_i hfault
    refine ⟨documents, ?_⟩
    cases hhalt : (read text).halt with
    | none => exact .inl ⟨rfl, hall hhalt⟩
    | some halt =>
      cases halt with
      | failure f => exact .inr ⟨f, rfl, hprefix⟩
      | fault f => exact absurd hhalt (hfault f)

end

namespace Assembly

/-! ### runs that meet a fault -/

section
variable (src : Source)

theorem takeAll_stream (s : Stream) (c : Assembly) (hidle : c.current = none) :
    ∃ c', (takeAll src s.events).run c = .ok () c' := by
  obtain ⟨c1, htake, -⟩ := takeAll_documentEvents src s.finished c hidle
  rw [Stream.events, takeAll_append_ok src htake]
  cases s.rest with
  | none => exact ⟨c1, rfl⟩
  | some part => exact ⟨_, takeAll_reading src c1 part.1 part.2⟩

/-- A fault is what taking in its run gives. -/
theorem takeRun_fault (base : Nat) {run : EventRun} (h : run.IsNested) {fault : Fault}
    (hfault : run.halt = some (.fault fault)) (c : Assembly) (hidle : c.current = none) :
    ∃ c', (takeRun src base run).run c = .error fault c' := by
  obtain ⟨documents, hprefix, -⟩ := h
  obtain ⟨s, hs⟩ := exists_stream documents hprefix
  obtain ⟨c', htake⟩ := takeAll_stream src s { c with base := base } hidle
  rw [hs] at htake
  have hrun : (takeRun src base run).run c
      = (takeAll src run.events >>= fun _ => throw fault : Action (Option Nat)).run
          { c with base := base } := by
    rw [takeRun, hfault]
    rfl
  exact ⟨c', by rw [hrun, EStateM.run_bind, htake]; rfl⟩

end

section
variable {read : EventSource} {src : Source}

theorem takeRuns_fault {base : Nat} {c c' : Assembly} {fault : Fault}
    (h : (takeRun src base (read (src.text.drop base))).run c = .error fault c') (fuel : Nat) :
    (takeRuns read src (fuel + 1) base).run c = .error fault c' := by
  rw [takeRuns, EStateM.run_bind, h]

/-- A fault of the first run is what loading gives. -/
theorem load_of_fault {tags : TagRegistry} {text : Text} (h : (read text).IsNested) {fault : Fault}
    (hhalt : (read text).halt = some (.fault fault)) : load read tags text = .error fault := by
  obtain ⟨c, hrun⟩ := takeRun_fault ⟨text, tags⟩ 0 h hhalt initial rfl
  rw [load, @takeRuns_fault read ⟨text, tags⟩ 0 initial c fault hrun]

variable (hread : ∀ base, (read (src.text.drop base)).IsNested)
include hread

/-- The runs of the quiet reader are those of the reader, or end at a fault of the reader. -/
theorem Runs.of_quiet {base : Nat} {c c' : Assembly} {runs : List (Nat × Option Nat)}
    (h : Runs read.quiet src base c runs c') (hreached : Reached read src base c)
    (hidle : c.current = none) :
    Runs read src base c runs c'
      ∨ ∃ base' c1 fault, Reached read src base' c1
        ∧ (read (src.text.drop base')).halt = some (.fault fault)
        ∧ ∀ fuel, runs.length ≤ fuel →
          ∃ c2, (takeRuns read src fuel base).run c = .error fault c2 := by
  have hquiet : ∀ base, (read.quiet (src.text.drop base)).IsWellNested :=
    fun base => EventSource.quiet_wellNested (hread base)
  induction h with
  | @last base c c' hrun =>
    cases hhalt : (read (src.text.drop base)).halt with
    | none =>
      rw [EventSource.quiet_of_no_fault (by rw [hhalt]; nofun)] at hrun
      exact .inl (.last hrun)
    | some halt =>
      cases halt with
      | failure f =>
        rw [EventSource.quiet_of_no_fault (by rw [hhalt]; nofun)] at hrun
        exact .inl (.last hrun)
      | fault fault =>
        obtain ⟨c2, hfault⟩ := takeRun_fault src base (hread base) hhalt c hidle
        refine .inr ⟨base, c, fault, hreached, hhalt, fun fuel hfuel => ⟨c2, ?_⟩⟩
        obtain ⟨fuel, rfl⟩ : ∃ n, fuel = n + 1 := ⟨fuel - 1, by simp at hfuel; omega⟩
        exact takeRuns_fault hfault fuel
  | @next base resume c c' c'' runs hrun _ ih =>
    obtain ⟨_, _, hresume, hidle1, _⟩ := takeRun_inv hquiet hidle hrun
    -- reading goes on only behind a failure, so this run is no fault
    have hfault : ∀ fault, (read (src.text.drop base)).halt ≠ some (.fault fault) := by
      intro fault hhalt
      rw [EventSource.quiet_of_fault hhalt] at hresume
      cases hresume
    rw [EventSource.quiet_of_no_fault hfault] at hrun
    rcases ih (.next hreached hrun) hidle1 with hruns | ⟨base', c1, fault, hreach, hhalt, htake⟩
    · exact .inl (.next hrun hruns)
    · refine .inr ⟨base', c1, fault, hreach, hhalt, fun fuel hfuel => ?_⟩
      rw [List.length_cons] at hfuel
      obtain ⟨fuel, rfl⟩ : ∃ n, fuel = n + 1 := ⟨fuel - 1, by omega⟩
      obtain ⟨c2, hc2⟩ := htake fuel (by omega)
      exact ⟨c2, by rw [takeRuns, EStateM.run_bind, hrun]; exact hc2⟩

end

/-- The failure of a run is reported in one of the documents that record failures. -/
theorem exists_reported {src : Source} {documents : List RawDocument}
    {recorded : List (Option (Nat × Failure))} (h : List.Forall₂ (Records src) documents recorded)
    {base : Nat} {f : Failure} (hmem : (base, f) ∈ recorded.reduceOption) :
    ∃ d ∈ documents, failureReport src base f ∈ d.diagnostics := by
  induction h with
  | nil => cases hmem
  | @cons d r documents recorded hrecords _ ih =>
    cases r with
    | none =>
      obtain ⟨d', hd', hreport⟩ := ih hmem
      exact ⟨d', List.mem_cons_of_mem _ hd', hreport⟩
    | some pair =>
      rcases List.mem_cons.mp hmem with rfl | hmem
      · obtain ⟨kept, before, after, -, -, hdiagnostics⟩ := hrecords
        refine ⟨d, List.mem_cons_self, ?_⟩
        rw [hdiagnostics]
        exact List.mem_append_right _ List.mem_cons_self
      · obtain ⟨d', hd', hreport⟩ := ih hmem
        exact ⟨d', List.mem_cons_of_mem _ hd', hreport⟩

/-- Loading gives the documents of all runs, in which every failure is reported, or the fault of
the first run that meets one. -/
theorem load_or_fault (read : EventSource) (tags : TagRegistry) (text : Text)
    (hread : ∀ base, (read (text.drop base)).IsNested) :
    (∃ runs c, Runs read ⟨text, tags⟩ 0 initial runs c ∧ load read tags text = .ok c.documents
      ∧ ∀ run ∈ runs, ∀ f, (read (text.drop run.1)).failure? = some f →
        ∃ d ∈ c.documents, failureReport ⟨text, tags⟩ run.1 f ∈ d.diagnostics)
    ∨ ∃ base c fault, Reached read ⟨text, tags⟩ base c
      ∧ (read (text.drop base)).halt = some (.fault fault)
      ∧ load read tags text = .error fault := by
  have hquiet : ∀ base, (read.quiet (text.drop base)).IsWellNested :=
    fun base => EventSource.quiet_wellNested (hread base)
  obtain ⟨runs, c, hruns⟩ := @exists_runs read.quiet ⟨text, tags⟩ hquiet 0 initial rfl
  have hlength := hruns.length_le hquiet rfl
  rw [markers_behind_zero] at hlength
  have hcard : (markers (Source.mk text tags).text).card ≤ text.length := markers_card_le text
  have hfuel : runs.length ≤ text.length + 1 := by omega
  rcases hruns.of_quiet hread .start rfl with hall | ⟨base, c1, fault, hreached, hhalt, htake⟩
  · left
    obtain ⟨added, recorded, hadded, hrecords, hfailures⟩ := hruns.records hquiet rfl
    refine ⟨runs, c, hall, by rw [load, takeRuns_of_runs hall _ hfuel], fun run hrun f hf => ?_⟩
    obtain rfl : c.documents = added := hadded
    apply exists_reported hrecords
    rw [hfailures, List.mem_filterMap]
    refine ⟨run, hrun, ?_⟩
    rw [EventSource.quiet_failure?, hf]
    rfl
  · right
    obtain ⟨c2, hc2⟩ := htake _ hfuel
    exact ⟨base, c1, fault, hreached, hhalt, by rw [load, hc2]⟩

end Assembly

/-! ### parsing -/

/-- A report about a failure becomes an error. -/
theorem mem_errors_of_failure {src : Source} {base : Int} {f : Failure} {d : RawDocument}
    (h : failureReport src base f ∈ d.diagnostics) (hreason : f.reason ≠ duplicateKey)
    (text : Text) (lineStarts : List Int) :
    (failureReport src base f).toDiagnostic ∈ (Document.ofRaw text lineStarts d).errors := by
  refine List.mem_append_right _ (List.mem_map_of_mem ?_)
  refine List.mem_filter.mpr ⟨List.mem_filter.mpr ⟨h, ?_⟩, ?_⟩
  · simp [RawDiagnostic.isMergeKey, failureReport, hreason]
  · simp [RawDiagnostic.isMinor, failureReport, hreason]

/-- A reason to stop in a part of a text is one of the whole text. -/
theorem Halt.IsOf.of_drop {text : Text} {base : Nat} {halt : Halt}
    (h : halt.IsOf (Text.chars (text.drop base))) : halt.IsOf text.chars := by
  cases halt with
  | failure f => exact h
  | fault fault =>
    obtain ⟨sign, hsign, hmem⟩ := h
    refine ⟨sign, hsign, Text.mem_chars.mpr ?_⟩
    exact List.mem_of_mem_drop (Text.mem_chars.mp hmem)

theorem parse_eq (text : Text) (specs : List Text) (tags : TagRegistry)
    (htags : readTags specs = .ok tags) :
    parse text specs = (match load textEvents tags text with
      | .ok raws => .ok (raws.map (Document.ofRaw text (lineStarts text)))
      | .error fault => .error (.fault fault)) := by
  rw [parse, htags]
  show parseWith tags text = _
  rw [parseWith, loadText]
  cases load textEvents tags text <;> rfl

/-- **Every failure becomes an error, and only faults are not turned into documents.**  Parsing
returns the documents of all runs, and whatever failure a run meets is an error of one of them.  Or
a run that is reached meets a fault: then parsing gives that fault, and the text has one of the
characters that lead to it. -/
theorem parse_reports_or_faults (text : Text) (specs : List Text) (tags : TagRegistry)
    (htags : readTags specs = .ok tags) :
    (∃ documents runs c, parse text specs = .ok documents
      ∧ Runs textEvents ⟨text, tags⟩ 0 initial runs c
      ∧ documents = c.documents.map (Document.ofRaw text (lineStarts text))
      ∧ ∀ run ∈ runs, ∀ f, (textEvents (text.drop run.1)).failure? = some f →
        ∃ d ∈ documents, (failureReport ⟨text, tags⟩ run.1 f).toDiagnostic ∈ d.errors)
    ∨ ∃ base c fault, parse text specs = .error (.fault fault)
      ∧ Reached textEvents ⟨text, tags⟩ base c
      ∧ (textEvents (text.drop base)).halt = some (.fault fault)
      ∧ ∃ sign ∈ fault.signs, .char sign ∈ text := by
  have hread : ∀ base, (textEvents (text.drop base)).IsNested :=
    fun base => (textEvents_reads (text.drop base)).1
  rcases load_or_fault textEvents tags text hread with
    ⟨runs, c, hruns, hload, hreported⟩ | ⟨base, c, fault, hreached, hhalt, hload⟩
  · left
    refine ⟨_, runs, c, by rw [parse_eq text specs tags htags, hload], hruns, rfl, ?_⟩
    intro run hrun f hf
    obtain ⟨d, hd, hreport⟩ := hreported run hrun f hf
    have hreason : f.reason ≠ duplicateKey :=
      (textEvents_reads (text.drop run.1)).2 _ (EventRun.halt_of_failure hf)
    exact ⟨_, List.mem_map_of_mem hd, mem_errors_of_failure hreport hreason text _⟩
  · right
    have hsigns : (Halt.fault fault).IsOf text.chars :=
      ((textEvents_reads (text.drop base)).2 _ hhalt).of_drop
    obtain ⟨sign, hsign, hmem⟩ := hsigns
    have hparse : parse text specs = .error (.fault fault) := by
      rw [parse_eq text specs tags htags, hload]
    exact ⟨base, c, fault, hparse, hreached, hhalt, sign, hsign, Text.mem_chars.mp hmem⟩

theorem Fault.mem_signs {fault : Fault} {sign : Char} (h : sign ∈ fault.signs) :
    sign = '%' ∨ sign = '\\' := by
  cases fault <;> simp [Fault.signs] at h <;> simp [h]

/-- A text that has neither of the two signs, with a custom tag, is returned with its failure: an
error of the one document in which it stands. -/
theorem parse_reports_cut :
    readTags ["!ref scalar"] = .ok ⟨[("!ref", .scalar)]⟩
      ∧ ∃ documents runs c, parse cutSequence ["!ref scalar"] = .ok documents
        ∧ Runs textEvents ⟨cutSequence, ⟨[("!ref", .scalar)]⟩⟩ 0 initial runs c
        ∧ ∀ run ∈ runs, ∀ f, (textEvents (cutSequence.drop run.1)).failure? = some f →
          ∃ d ∈ documents, ∃ e ∈ d.errors, e.message = f.reason := by
  have htags : readTags ["!ref scalar"] = .ok ⟨[("!ref", .scalar)]⟩ := by decide +kernel
  refine ⟨htags, ?_⟩
  rcases parse_reports_or_faults cutSequence ["!ref scalar"] _ htags with
    ⟨documents, runs, c, hparse, hruns, -, hreported⟩ | ⟨_, _, fault, -, -, -, sign, hsign, hmem⟩
  · refine ⟨documents, runs, c, hparse, hruns, fun run hrun f hf => ?_⟩
    obtain ⟨d, hd, herror⟩ := hreported run hrun f hf
    exact ⟨d, hd, _, herror, rfl⟩
  · rcases Fault.mem_signs hsign with rfl | rfl
    · exact absurd hmem (by decide)
    · exact absurd hmem (by decide)

/-- A version other than the two known ones is a fault, so that nothing is returned. -/
theorem parse_unknown_version :
    readTags [] = .ok .empty
      ∧ parse "%YAML 1.3\n--- a\n" [] = .error (.fault (.unsupportedVersion 1 3)) := by
  have hhalt : (textEvents (Text.ofString "%YAML 1.3\n--- a\n")).halt
      = some (.fault (.unsupportedVersion 1 3)) := by decide +kernel
  have hload := @load_of_fault textEvents .empty _ (textEvents_reads _).1 _ hhalt
  exact ⟨rfl, by rw [parse_eq _ [] .empty rfl, hload]⟩

end YamlSpan
