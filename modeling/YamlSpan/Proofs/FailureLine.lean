import YamlSpan.Proofs.Positions
import YamlSpan.Proofs.Tiling

/-!
# A failure is reported within one line

The report about a failure runs from its offset to the next line feed or carriage return.  The table
of line starts counts a carriage return and a line feed behind it as one break, and yet the two
agree: a line starts right behind a line feed or a carriage return, so none starts behind the first
offset of the report and not behind its last.  Closing what is open adds reports only behind that
one, whatever is on the stack.

* `Assembly.closeAll_open`            closing any stack in an open document
* `Assembly.breakOff_reports`         a failure in any state is reported in the document it ends
* `Position.ofOffset?_of_unbroken`    positions that no line break divides
* `Assembly.failure_reported_in_line` the report is within one line
-/

namespace YamlSpan

/-! ### failures in any state -/

/-- A document later on: its span stays, and reports are only added behind those it had. -/
def RawDocument.IsGrown (d d' : RawDocument) : Prop :=
  d'.span = d.span ∧ d.diagnostics <+: d'.diagnostics

theorem RawDocument.IsGrown.trans {a b c : RawDocument} (h : a.IsGrown b) (h' : b.IsGrown c) :
    a.IsGrown c :=
  ⟨h'.1.trans h.1, h.2.trans h'.2⟩

theorem RawDocument.isGrown_reporting (d : RawDocument) (reports : List RawDiagnostic) :
    d.IsGrown (d.reporting reports) :=
  ⟨rfl, List.prefix_append _ _⟩

namespace Assembly

section
variable (src : Source) (documents : List RawDocument) (d : RawDocument)
  (stack : List OpenCollection) (anchors : List (String × RawNode)) (base : Int)

/-- A finished node goes into the document or into the collection on top of the stack. -/
theorem add_open (node : Option RawNode) (span : Span) :
    ∃ d' stack', (add src node span).run ⟨documents, some d, stack, anchors, base⟩
        = .ok () ⟨documents, some d', stack', anchors, base⟩
      ∧ stack'.length = stack.length ∧ d.IsGrown d' := by
  cases stack with
  | nil =>
    refine ⟨_, _, add_root src documents d anchors base node span, rfl, ?_⟩
    exact ⟨rfl, List.prefix_refl _⟩
  | cons top rest =>
    obtain ⟨start, anchor, anchorStop, content⟩ := top
    have hsame : d.IsGrown d := ⟨rfl, List.prefix_refl _⟩
    cases content with
    | sequence items =>
      exact ⟨_, _, add_item src documents d rest anchors base start anchorStop anchor items node
        span, rfl, hsame⟩
    | mapping entries waiting =>
      cases waiting with
      | none =>
        exact ⟨_, _, add_key src documents d rest anchors base start anchorStop anchor entries
          ⟨node, span⟩, rfl, hsame⟩
      | some key =>
        exact ⟨_, _, add_value src documents d rest anchors base start anchorStop anchor entries
          ⟨key.node, ⟨key.start, key.start⟩⟩ ⟨node, span⟩, rfl, d.isGrown_reporting _⟩

/-- The end of a collection in which no key waits. -/
theorem close_finished (top : OpenCollection) (stop : Int) (htop : top.isWaiting = false) :
    ∃ d' stack' anchors',
      (close src stop).run ⟨documents, some d, top :: stack, anchors, base⟩
        = .ok () ⟨documents, some d', stack', anchors', base⟩
      ∧ stack'.length = stack.length ∧ d.IsGrown d' := by
  let m := finished anchors top.anchor (top.node stop) ⟨top.start, top.anchorStop⟩ []
  obtain ⟨d', stack', hadd, hlength, hgrown⟩ :=
    add_open src documents (d.reporting m.reports) stack m.anchors base m.value.node m.value.span
  refine ⟨d', stack', m.anchors, ?_, hlength, (d.isGrown_reporting _).trans hgrown⟩
  rw [close_run src documents d stack anchors base top stop htop]
  exact hadd

/-- The end of any collection: a key that still waits gets its entry first. -/
theorem close_open (top : OpenCollection) (stop : Int) :
    ∃ d' stack' anchors',
      (close src stop).run ⟨documents, some d, top :: stack, anchors, base⟩
        = .ok () ⟨documents, some d', stack', anchors', base⟩
      ∧ stack'.length = stack.length ∧ d.IsGrown d' := by
  obtain ⟨start, anchor, anchorStop, content⟩ := top
  cases content with
  | sequence items => exact close_finished src documents d stack anchors base _ stop rfl
  | mapping entries waiting =>
    cases waiting with
    | none => exact close_finished src documents d stack anchors base _ stop rfl
    | some key =>
      let placed : Placed := ⟨key.node, ⟨key.start, key.start⟩⟩
      obtain ⟨d', stack', anchors', hclose, hlength, hgrown⟩ :=
        close_finished src documents (d.reporting (repeatReports src.text entries placed)) stack
          anchors base ⟨start, anchor, anchorStop,
            .mapping (entries ++ [pairEntry placed ⟨none, ⟨stop, stop⟩⟩]) none⟩ stop rfl
      refine ⟨d', stack', anchors', ?_, hlength, (d.isGrown_reporting _).trans hgrown⟩
      rw [← hclose]
      exact close_waiting src documents d stack anchors base start anchorStop anchor entries placed
        stop

end

/-- Closing as many collections as are open empties any stack. -/
theorem closeAll_open (src : Source) (documents : List RawDocument) (base stop : Int)
    (stack : List OpenCollection) (d : RawDocument) (anchors : List (String × RawNode)) :
    ∃ d' anchors',
      (closeAll src stop stack.length).run ⟨documents, some d, stack, anchors, base⟩
        = .ok () ⟨documents, some d', [], anchors', base⟩
      ∧ d.IsGrown d' := by
  -- each end changes the collection below, so the induction is on the height of the stack
  induction hheight : stack.length generalizing stack d anchors with
  | zero =>
    rw [List.eq_nil_of_length_eq_zero hheight]
    exact ⟨d, anchors, rfl, rfl, List.prefix_refl _⟩
  | succ height ih =>
    obtain ⟨top, rest, rfl⟩ := List.exists_cons_of_length_eq_add_one hheight
    obtain ⟨d₁, stack₁, anchors₁, hclose, hlength, hgrown⟩ :=
      close_open src documents d rest anchors base top stop
    have hrest : stack₁.length = height := hlength.trans (Nat.succ.inj hheight)
    obtain ⟨d₂, anchors₂, hclosed, hgrown'⟩ := ih stack₁ d₁ anchors₁ hrest
    refine ⟨d₂, anchors₂, ?_, hgrown.trans hgrown'⟩
    rw [closeAll, EStateM.run_bind, hclose]
    exact hclosed

/-- The reports about the open document, if there is one. -/
def openReports (c : Assembly) : List RawDiagnostic :=
  c.current.elim [] RawDocument.diagnostics

/-- A failure in any state is reported in the document that it ends, behind what was reported
before. -/
theorem breakOff_reports (src : Source) (f : Failure) (c : Assembly) :
    ∃ (resume : Option Nat) (left : Assembly) (d : RawDocument) (after : List RawDiagnostic),
      (breakOff src f).run c = .ok resume left
      ∧ left.current = none ∧ left.stack = []
      ∧ left.documents = c.documents ++ [d]
      ∧ d.diagnostics = c.openReports ++ failureReport src c.base f :: after := by
  obtain ⟨documents, current, stack, anchors, base⟩ := c
  cases current with
  | none => exact ⟨_, _, _, [], breakOff_idle src f _ rfl, rfl, rfl, rfl, rfl⟩
  | some d =>
    obtain ⟨d', anchors', hclose, -, after, hreports⟩ :=
      closeAll_open src documents base (failureOffset src base f) stack
        (d.reporting [failureReport src base f]) anchors
    refine ⟨_, _, _, after, breakOff_open src f hclose, rfl, rfl, rfl, ?_⟩
    show d'.diagnostics = d.diagnostics ++ failureReport src base f :: after
    rw [← hreports]
    simp [RawDocument.reporting]

/-! ### the rest of a line -/

theorem slice_lineStop {text : Text} {index : Nat} (hindex : index ≤ text.length) :
    Text.slice text index (lineStop text index)
      = (text.drop index).takeWhile fun c => !isLineEnd c := by
  obtain ⟨-, hinside⟩ := lineStop_le text hindex
  rw [Text.slice_natCast text _ _ hinside, lineStop, Nat.add_sub_cancel_left]
  exact (List.prefix_iff_eq_take.mp (List.takeWhile_prefix _)).symm

theorem lineStop_unbroken {text : Text} {index : Nat} (hindex : index ≤ text.length) :
    ∀ c ∈ Text.slice text index (lineStop text index), isLineEnd c = false := by
  intro c hc
  rw [slice_lineStop hindex] at hc
  simpa using List.all_eq_true.mp List.all_takeWhile c hc

theorem lineStop_ends {text : Text} {index : Nat} (hindex : index ≤ text.length) :
    lineStop text index = text.length
      ∨ ∃ c, text[lineStop text index]? = some c ∧ isLineEnd c = true := by
  have hsplit := List.takeWhile_append_dropWhile (p := fun c => !isLineEnd c)
    (l := text.drop index)
  have hbehind : text[lineStop text index]?
      = ((text.drop index).dropWhile fun c => !isLineEnd c)[0]? := by
    have hread := congrArg (·[((text.drop index).takeWhile fun c => !isLineEnd c).length]?) hsplit
    simp only [List.getElem?_append_right (Nat.le_refl _), Nat.sub_self, List.getElem?_drop]
      at hread
    exact hread.symm
  rw [hbehind]
  cases hrest : (text.drop index).dropWhile fun c => !isLineEnd c with
  | nil =>
    left
    rw [hrest, List.append_nil] at hsplit
    rw [lineStop, hsplit, List.length_drop]
    omega
  | cons c behind =>
    right
    have hhead := List.head?_dropWhile_not (fun c => !isLineEnd c) (text.drop index)
    rw [hrest] at hhead
    exact ⟨c, rfl, by simpa using hhead⟩

end Assembly

/-! ### positions -/

/-- No line starts behind an offset if no line ends from there on. -/
theorem Position.ofOffset?_of_unbroken {text : Text} {start stop : Nat} (hle : start ≤ stop)
    (hunbroken : ∀ i, start ≤ i → i < stop → ¬ BreaksAt text i) :
    ∃ p : Position, ofOffset? (lineStarts text) start = some p
      ∧ ofOffset? (lineStarts text) stop
        = some ⟨p.line, p.character + ((stop : Int) - start)⟩ := by
  have hincreasing := lineStarts_increasing text
  obtain ⟨p, hp, hmarks⟩ :=
    ofOffset?_marks hincreasing rfl (Int.natCast_nonneg start)
  obtain ⟨q, hq, hqmarks⟩ :=
    ofOffset?_marks hincreasing rfl (Int.natCast_nonneg stop)
  refine ⟨p, hp, hq.trans (congrArg some (hqmarks.unique hincreasing ?_))⟩
  obtain ⟨lineStart, hline, hsum⟩ := hmarks.sum
  have hcharacter := hmarks.character
  refine ⟨hmarks.line, ?_, ⟨lineStart, hline, ?_⟩, ?_⟩
  · show 0 ≤ p.character + ((stop : Int) - start)
    omega
  · show lineStart + (p.character + ((stop : Int) - start)) = stop
    omega
  · -- the next line starts behind a break, and that break is not in front of the second offset
    intro next hnext
    have hbehind := hmarks.next next hnext
    obtain rfl | ⟨i, rfl, hbreak⟩ :=
      (mem_lineStarts_iff text next).mp (List.mem_of_getElem? hnext)
    · omega
    · have hout : ¬ i < stop := fun hi => hunbroken i (by omega) hi hbreak
      omega

/-- A text has no break where a slice of it has no line end. -/
theorem not_breaksAt_of_slice {text : Text} {start stop i : Nat} (hinside : stop ≤ text.length)
    (hnone : ∀ c ∈ Text.slice text start stop, isLineEnd c = false) (hlow : start ≤ i)
    (hhigh : i < stop) : ¬ BreaksAt text i := by
  have hread : ∀ c, text[i]? = some c → isLineEnd c = false := by
    intro c hc
    refine hnone c (List.mem_of_getElem? (i := i - start) ?_)
    rw [Text.slice_natCast text _ _ hinside, List.getElem?_take_of_lt (by omega),
      List.getElem?_drop, Nat.add_sub_cancel' hlow]
    exact hc
  rintro (hfeed | ⟨hreturn, -⟩)
  · exact absurd (hread _ hfeed) (by decide)
  · exact absurd (hread _ hreturn) (by decide)

/-- A span that runs to the end of a line without leaving it. -/
structure Span.IsLineRest (text : Text) (span : Span) : Prop where
  inside : span.Within 0 text.length
  unbroken : ∀ c ∈ Text.slice text span.start span.stop, c ≠ .char '\r' ∧ c ≠ .char '\n'
  stop : span.stop = text.length ∨ ∃ c, text[span.stop.toNat]? = some c
    ∧ (c = .char '\r' ∨ c = .char '\n')
  line : ∃ p : Position, Position.ofOffset? (lineStarts text) span.start = some p
    ∧ Position.ofOffset? (lineStarts text) span.stop
      = some ⟨p.line, p.character + (span.stop - span.start)⟩

namespace Assembly

theorem lineStop_isLineRest {text : Text} {index : Nat} (hindex : index ≤ text.length) :
    Span.IsLineRest text ⟨index, lineStop text index⟩ := by
  obtain ⟨hforward, hinside⟩ := lineStop_le text hindex
  refine ⟨⟨Int.natCast_nonneg _, Int.ofNat_le.mpr hforward, Int.ofNat_le.mpr hinside⟩, ?_, ?_, ?_⟩
  · intro c hc
    have hnone := lineStop_unbroken hindex c hc
    rw [Bool.eq_false_iff, Ne, isLineEnd_iff, not_or] at hnone
    exact hnone
  · show (lineStop text index : Int) = text.length ∨ _
    obtain hend | ⟨c, hc, hline⟩ := lineStop_ends hindex
    · exact .inl (congrArg Int.ofNat hend)
    · exact .inr ⟨c, hc, (isLineEnd_iff c).mp hline⟩
  · refine Position.ofOffset?_of_unbroken hforward fun i hlow hhigh => ?_
    exact not_breaksAt_of_slice hinside (lineStop_unbroken hindex) hlow hhigh

/-- **A failure is reported within one line.**  In every state, breaking off meets no fault and
appends one document.  Behind what was reported about it before, the failure is reported from its
offset, which is inside the text, to the end of a line: no line feed or carriage return is in
between, and both ends have positions on one line. -/
theorem failure_reported_in_line (src : Source) (f : Failure) (c : Assembly)
    (hindex : ∀ index, f.index? = some index → 0 ≤ c.base + index) :
    ∃ (resume : Option Nat) (left : Assembly) (d : RawDocument) (stop : Int)
      (after : List RawDiagnostic),
      (breakOff src f).run c = .ok resume left
      ∧ left.documents = c.documents ++ [d]
      ∧ d.diagnostics
        = c.openReports ++ ⟨f.reason, ⟨f.offset src.text.length c.base, stop⟩, false⟩ :: after
      ∧ Span.IsLineRest src.text ⟨f.offset src.text.length c.base, stop⟩ := by
  obtain ⟨resume, left, d, after, hrun, -, -, hdocuments, hreports⟩ := breakOff_reports src f c
  have hoffset := failureOffset_eq src c.base f hindex
  rw [failureReport, hoffset] at hreports
  refine ⟨resume, left, d, _, after, hrun, hdocuments, hreports, ?_⟩
  rw [← hoffset]
  exact lineStop_isLineRest (failureOffset_le src c.base f)

/-- A failure between a carriage return and a line feed, in a run that started at the second
character, with a key that waits in a map and a sequence open inside that map. -/
theorem failure_reported_in_line_pair :
    let text : Text := [.char 'a', .char 'b', .char '\r', .char '\n', .char 'c']
    let waiting := some (⟨none, 0⟩ : WaitingKey)
    let stack : List OpenCollection :=
      [⟨1, none, 1, .sequence []⟩, ⟨0, none, 0, .mapping [] waiting⟩]
    let c : Assembly := ⟨[], some ⟨⟨0, 0⟩, none, []⟩, stack, [], 1⟩
    let f := Failure.unmarked "cut" (some 2)
    f.index? = some 2 ∧ f.offset 5 c.base = 3
      ∧ ∃ resume left stop, (breakOff ⟨text, .empty⟩ f).run c = .ok resume left
        ∧ left.documents.length = 1 ∧ Span.IsLineRest text ⟨3, stop⟩ := by
  intro text waiting stack c f
  have hindex : ∀ index, f.index? = some index → 0 ≤ c.base + index := by
    rintro index ⟨⟩
    decide
  obtain ⟨resume, left, d, stop, after, hrun, hdocuments, -, hline⟩ :=
    failure_reported_in_line ⟨text, .empty⟩ f c hindex
  refine ⟨rfl, rfl, resume, left, stop, hrun, ?_, hline⟩
  rw [hdocuments]
  rfl

end Assembly

end YamlSpan
