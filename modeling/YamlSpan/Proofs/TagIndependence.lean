import YamlSpan.Proofs.Outcome
import YamlSpan.Proofs.Reports

/-!
# What tags are known for changes nothing but errors about tags

Two registries of tags, one text.  The registry is asked in one place, for the report about a tag,
and a report is never read again before documents are made.  So two runs over the same events differ
in reports about tags only: all nodes, spans and anchors are the same, and so is the place where
reading goes on after a failure.

* `untagged`                           the reports that are not about tags
* `Meaning.SameButTags`                two meanings that differ in reports about tags only
* `meaning_same`, `layerStack_same`    whole trees, and layers of them
* `added_same`, `takeRuns_same`        the documents of a run, and of all runs
* `Document.withoutTagErrors`          a document less its errors about tags
* `documents_independent_of_tags`      loading and parsing a text
-/

namespace YamlSpan

/-! ### reports that are not about tags -/

/-- The reports that are not about tags. -/
def untagged (reports : List RawDiagnostic) : List RawDiagnostic :=
  reports.filter fun d => !d.isAboutTag

theorem untagged_append (a b : List RawDiagnostic) : untagged (a ++ b) = untagged a ++ untagged b :=
  List.filter_append ..

theorem untagged_tagReports (src : Source) (tag : Option String) (kind : TagKind) (span : Span)
    (reports : List RawDiagnostic) :
    untagged (tagReports src tag kind span ++ reports) = untagged reports := by
  have hnone : untagged (tagReports src tag kind span) = [] :=
    List.filter_eq_nil_iff.mpr fun d hd => by simp [(tagReports_signs src tag kind span d hd).2.2]
  rw [untagged_append, hnone, List.nil_append]

/-- Reports that are the same up to a place and in all stay the same with one more at the place. -/
theorem untagged_insert {before before' after after' : List RawDiagnostic}
    (hbefore : untagged before = untagged before')
    (hall : untagged (before ++ after) = untagged (before' ++ after')) (d : RawDiagnostic) :
    untagged (before ++ d :: after) = untagged (before' ++ d :: after') := by
  rw [untagged_append, untagged_append, hbefore] at hall
  have hafter := List.append_cancel_left hall
  have hcons : ∀ reports, untagged (d :: reports) = untagged [d] ++ untagged reports :=
    untagged_append [d]
  rw [untagged_append, untagged_append, hbefore, hcons after, hcons after', hafter]

/-- Two meanings that differ in reports about tags only. -/
structure Meaning.SameButTags {α : Type} (m m' : Meaning α) : Prop where
  value : m.value = m'.value
  anchors : m.anchors = m'.anchors
  reports : untagged m.reports = untagged m'.reports

theorem Meaning.SameButTags.refl {α : Type} (m : Meaning α) : m.SameButTags m := ⟨rfl, rfl, rfl⟩

theorem finished_same (anchors : List (String × RawNode)) (anchor : Option String) (node : RawNode)
    (mark : Span) {reports reports' : List RawDiagnostic}
    (h : untagged reports = untagged reports') :
    (finished anchors anchor node mark reports).SameButTags
      (finished anchors anchor node mark reports') := by
  refine ⟨rfl, rfl, ?_⟩
  simp only [finished, untagged_append, h]

section
variable (text : Text) (tags tags' : TagRegistry) (base : Int)

theorem scalarMeaning_same (span : Span) (value : Text) (plain : Bool) (anchor tag : Option String)
    (anchors : List (String × RawNode)) :
    (scalarMeaning ⟨text, tags⟩ span value plain anchor tag anchors).SameButTags
      (scalarMeaning ⟨text, tags'⟩ span value plain anchor tag anchors) := by
  unfold scalarMeaning
  split
  · exact .refl _
  · split
    · exact .refl _
    · apply finished_same
      have hnone := fun tags => untagged_tagReports ⟨text, tags⟩ tag .scalar span []
      simp only [List.append_nil] at hnone
      rw [hnone, hnone]

namespace EventTree

mutual

/-- The meanings of a tree differ in reports about tags only. -/
theorem meaning_same : ∀ (tree : EventTree) (anchors : List (String × RawNode)),
    (tree.meaning ⟨text, tags⟩ base anchors).SameButTags
      (tree.meaning ⟨text, tags'⟩ base anchors)
  | .scalar span value plain anchor tag, anchors =>
    scalarMeaning_same text tags tags' (span.shift base) value plain anchor tag anchors
  | .reference _ _, _ => .refl _
  | .sequence start anchor tag items stop, anchors => by
    obtain ⟨hvalue, hanchors, hreports⟩ := itemsMeaning_same items anchors
    simp only [meaning, hvalue, hanchors]
    apply finished_same
    rw [untagged_tagReports, untagged_tagReports, hreports]
  | .mapping start anchor tag pairs stop, anchors => by
    obtain ⟨hvalue, hanchors, hreports⟩ := pairsMeaning_same pairs [] anchors
    simp only [meaning, hvalue, hanchors]
    apply finished_same
    rw [untagged_tagReports, untagged_tagReports, hreports]

theorem itemsMeaning_same : ∀ (items : List EventTree) (anchors : List (String × RawNode)),
    (itemsMeaning ⟨text, tags⟩ base items anchors).SameButTags
      (itemsMeaning ⟨text, tags'⟩ base items anchors)
  | [], _ => .refl _
  | item :: rest, anchors => by
    obtain ⟨hvalue, hanchors, hreports⟩ := meaning_same item anchors
    simp only [itemsMeaning, hvalue, hanchors]
    have hrest := itemsMeaning_same rest (item.meaning ⟨text, tags'⟩ base anchors).anchors
    refine ⟨by rw [hrest.value], hrest.anchors, ?_⟩
    rw [untagged_append, untagged_append, hreports, hrest.reports]

theorem pairsMeaning_same : ∀ (pairs : List (EventTree × EventTree)) (earlier : List RawEntry)
    (anchors : List (String × RawNode)),
    (pairsMeaning ⟨text, tags⟩ base pairs earlier anchors).SameButTags
      (pairsMeaning ⟨text, tags'⟩ base pairs earlier anchors)
  | [], _, _ => .refl _
  | (key, value) :: rest, earlier, anchors => by
    have hkey := meaning_same key anchors
    have hvalue := meaning_same value (key.meaning ⟨text, tags'⟩ base anchors).anchors
    simp only [pairsMeaning, hkey.value, hkey.anchors, hvalue.value, hvalue.anchors]
    have hrest := pairsMeaning_same rest (earlier ++ [pairEntry
      (key.meaning ⟨text, tags'⟩ base anchors).value
      (value.meaning ⟨text, tags'⟩ base (key.meaning ⟨text, tags'⟩ base anchors).anchors).value])
      (value.meaning ⟨text, tags'⟩ base (key.meaning ⟨text, tags'⟩ base anchors).anchors).anchors
    refine ⟨by rw [hrest.value], hrest.anchors, ?_⟩
    simp only [untagged_append, hkey.reports, hvalue.reports, hrest.reports]

end

end EventTree

/-! ### documents -/

theorem Layer.opened_same (layer : Layer) (anchors : List (String × RawNode)) :
    (layer.opened ⟨text, tags⟩ base anchors).SameButTags
      (layer.opened ⟨text, tags'⟩ base anchors) := by
  cases layer with
  | sequence start anchor tag items =>
    obtain ⟨hvalue, hanchors, hreports⟩ :=
      EventTree.itemsMeaning_same text tags tags' base items anchors
    simp only [Layer.opened, hvalue, hanchors]
    refine ⟨rfl, rfl, ?_⟩
    rw [untagged_tagReports, untagged_tagReports, hreports]
  | mapping start anchor tag pairs key =>
    have hpairs := EventTree.pairsMeaning_same text tags tags' base pairs [] anchors
    cases key with
    | none =>
      simp only [Layer.opened, hpairs.value, hpairs.anchors]
      refine ⟨rfl, rfl, ?_⟩
      rw [untagged_tagReports, untagged_tagReports, hpairs.reports]
    | some key =>
      have hkey := EventTree.meaning_same text tags tags' base key
        (EventTree.pairsMeaning ⟨text, tags'⟩ base pairs [] anchors).anchors
      simp only [Layer.opened, hpairs.value, hpairs.anchors, hkey.value, hkey.anchors]
      refine ⟨rfl, rfl, ?_⟩
      rw [untagged_tagReports, untagged_tagReports, untagged_append, untagged_append,
        hpairs.reports, hkey.reports]

theorem layerStack_same (layers : List Layer) (anchors : List (String × RawNode)) :
    (layerStack ⟨text, tags⟩ base layers anchors).SameButTags
      (layerStack ⟨text, tags'⟩ base layers anchors) := by
  induction layers generalizing anchors with
  | nil => exact .refl _
  | cons layer inner ih =>
    obtain ⟨hvalue, hanchors, hreports⟩ := layer.opened_same text tags tags' base anchors
    simp only [layerStack, hvalue, hanchors]
    have hinner := ih (layer.opened ⟨text, tags'⟩ base anchors).anchors
    refine ⟨by rw [hinner.value], hinner.anchors, ?_⟩
    rw [untagged_append, untagged_append, hreports, hinner.reports]

theorem Reading.reached_reports_same (r : Reading) :
    untagged (r.reached ⟨text, tags⟩ base).reports
      = untagged (r.reached ⟨text, tags'⟩ base).reports := by
  cases r with
  | part layers => exact (layerStack_same text tags tags' base layers []).reports
  | whole tree => exact (tree.meaning_same text tags tags' base []).reports

theorem keptRoot_same (kept : Option EventTree) :
    keptRoot ⟨text, tags⟩ base kept = keptRoot ⟨text, tags'⟩ base kept := by
  cases kept with
  | none => rfl
  | some tree => exact congrArg Placed.node (tree.meaning_same text tags tags' base []).value

theorem keptReports_same (kept : Option EventTree) :
    untagged (keptReports ⟨text, tags⟩ base kept)
      = untagged (keptReports ⟨text, tags'⟩ base kept) := by
  cases kept with
  | none => rfl
  | some tree => exact (tree.meaning_same text tags tags' base []).reports

def RawDocument.untagged (d : RawDocument) : RawDocument :=
  { d with diagnostics := YamlSpan.untagged d.diagnostics }

theorem RawDocument.untagged_eq {d d' : RawDocument} (hspan : d.span = d'.span)
    (hroot : d.root = d'.root)
    (hreports : YamlSpan.untagged d.diagnostics = YamlSpan.untagged d'.diagnostics) :
    d.untagged = d'.untagged := by
  rw [RawDocument.untagged, hspan, hroot, hreports]
  rfl

theorem EventDocument.toRaw_same (d : EventDocument) :
    (d.toRaw ⟨text, tags⟩ base).untagged = (d.toRaw ⟨text, tags'⟩ base).untagged := by
  obtain ⟨hvalue, -, hreports⟩ := d.root.meaning_same text tags tags' base []
  exact RawDocument.untagged_eq rfl (congrArg Placed.node hvalue) hreports

open Assembly

/-- The report about the failure stands behind the same reports, less those about tags, and so the
reports behind it are the same too. -/
theorem Assembly.brokenDocument_same (start : Span) (r : Reading) (f : Failure) :
    (brokenDocument ⟨text, tags⟩ base start r f).untagged
      = (brokenDocument ⟨text, tags'⟩ base start r f).untagged := by
  obtain ⟨after, hkept, hreports⟩ := brokenDocument_reports ⟨text, tags⟩ base start r f
  obtain ⟨after', hkept', hreports'⟩ := brokenDocument_reports ⟨text, tags'⟩ base start r f
  have hsame : YamlSpan.untagged ((r.reached ⟨text, tags⟩ base).reports ++ after)
      = YamlSpan.untagged ((r.reached ⟨text, tags'⟩ base).reports ++ after') := by
    rw [← hkept, ← hkept']
    exact keptReports_same text tags tags' base _
  refine RawDocument.untagged_eq rfl (keptRoot_same text tags tags' base _) ?_
  rw [hreports, hreports']
  exact untagged_insert (r.reached_reports_same text tags tags' base) hsame _

/-! ### runs -/

/-- Raw documents that differ in reports about tags only. -/
def SameDocuments (documents documents' : List RawDocument) : Prop :=
  documents.map RawDocument.untagged = documents'.map RawDocument.untagged

theorem SameDocuments.append {a a' b b' : List RawDocument} (ha : SameDocuments a a')
    (hb : SameDocuments b b') : SameDocuments (a ++ b) (a' ++ b') := by
  unfold SameDocuments
  rw [List.map_append, List.map_append, ha, hb]

theorem SameDocuments.lastStop {documents documents' : List RawDocument}
    (h : SameDocuments documents documents') (previous : Int) :
    (documents.getLast?.map (·.span.stop)).getD previous
      = (documents'.getLast?.map (·.span.stop)).getD previous := by
  have hspan : ∀ documents : List RawDocument, documents.getLast?.map (·.span.stop)
      = (documents.map RawDocument.untagged).getLast?.map (·.span.stop) := by
    intro documents
    rw [List.getLast?_map, Option.map_map]
    rfl
  rw [hspan, h, ← hspan]

/-- The documents that a run adds differ in reports about tags only. -/
theorem Stream.added_same (previous : Int) (s : Stream) (failure : Option Failure) :
    SameDocuments (s.added ⟨text, tags⟩ base previous failure)
      (s.added ⟨text, tags'⟩ base previous failure) := by
  have hwhole : SameDocuments (s.finished.map (EventDocument.toRaw ⟨text, tags⟩ base))
      (s.finished.map (EventDocument.toRaw ⟨text, tags'⟩ base)) := by
    unfold SameDocuments
    rw [List.map_map, List.map_map]
    exact List.map_congr_left fun d _ => d.toRaw_same text tags tags' base
  refine hwhole.append ?_
  rw [hwhole.lastStop]
  cases failure with
  | none => rfl
  | some f =>
    refine congrArg (fun d => [d]) ?_
    unfold Stream.failed
    cases s.rest with
    | none => rfl
    | some part => exact brokenDocument_same text tags tags' base part.1 part.2 f

end

open Assembly

section
variable (text : Text) (tags tags' : TagRegistry)

/-- Two assemblies between runs whose documents differ in reports about tags only.  What else they
hold is given up when the next document starts. -/
structure Assembly.Alike (c c' : Assembly) : Prop where
  idle : c.current = none
  idle' : c'.current = none
  documents : SameDocuments c.documents c'.documents

/-- Two actions that end alike: with the same value, or with the same fault. -/
inductive EndAlike {α : Type} : EStateM.Result Fault Assembly α → EStateM.Result Fault Assembly α →
    Prop where
  | ok (value : α) {c c' : Assembly} (h : c.Alike c') : EndAlike (.ok value c) (.ok value c')
  | error (fault : Fault) (c c' : Assembly) : EndAlike (.error fault c) (.error fault c')

/-- A run that meets no fault is well-nested. -/
theorem EventRun.IsNested.wellNested {run : EventRun} (h : run.IsNested)
    (hfault : ∀ fault, run.halt ≠ some (.fault fault)) : run.IsWellNested := by
  obtain ⟨documents, hprefix, hall⟩ := h
  cases hhalt : run.halt with
  | none => exact ⟨documents, .inl ⟨hhalt, hall hhalt⟩⟩
  | some halt =>
    cases halt with
    | failure f => exact ⟨documents, .inr ⟨f, hhalt, hprefix⟩⟩
    | fault fault => exact absurd hhalt (hfault fault)

theorem EventRun.IsWellNested.nested {run : EventRun} (h : run.IsWellNested) : run.IsNested := by
  obtain ⟨documents, ⟨hhalt, hevents⟩ | ⟨f, hhalt, hprefix⟩⟩ := h
  · exact ⟨documents, hevents ▸ List.prefix_rfl, fun _ => hevents⟩
  · exact ⟨documents, hprefix, fun hnone => by rw [hhalt] at hnone; cases hnone⟩

theorem takeRun_same (base : Nat) {run : EventRun} (hrun : run.IsNested) {c c' : Assembly}
    (h : c.Alike c') :
    EndAlike ((takeRun ⟨text, tags⟩ base run).run c) ((takeRun ⟨text, tags'⟩ base run).run c') := by
  by_cases hfault : ∃ fault, run.halt = some (.fault fault)
  · obtain ⟨fault, hfault⟩ := hfault
    obtain ⟨c1, htake⟩ := takeRun_fault ⟨text, tags⟩ base hrun hfault c h.idle
    obtain ⟨c1', htake'⟩ := takeRun_fault ⟨text, tags'⟩ base hrun hfault c' h.idle'
    rw [htake, htake']
    exact .error fault c1 c1'
  · -- both follow one stream, and where to go on after its failure depends on the text alone
    obtain ⟨s, hfollows⟩ := (hrun.wellNested (not_exists.mp hfault)).exists_follows
    obtain ⟨c1, htake, hidle, hdocuments⟩ := takeRun_follows ⟨text, tags⟩ base hfollows c h.idle
    obtain ⟨c1', htake', hidle', hdocuments'⟩ :=
      takeRun_follows ⟨text, tags'⟩ base hfollows c' h.idle'
    have hstop : lastStop c.documents = lastStop c'.documents := h.documents.lastStop 0
    rw [htake, htake']
    refine .ok _ ⟨hidle, hidle', ?_⟩
    rw [hdocuments, hdocuments', hstop]
    exact h.documents.append (s.added_same text tags tags' base _ _)

/-- Where one registry makes reading go on, so does the other, at the same place. -/
theorem takeRuns_same {read : EventSource} (hread : ∀ base, (read (text.drop base)).IsNested)
    (fuel base : Nat) {c c' : Assembly} (h : c.Alike c') :
    EndAlike ((takeRuns read ⟨text, tags⟩ fuel base).run c)
      ((takeRuns read ⟨text, tags'⟩ fuel base).run c') := by
  induction fuel generalizing base c c' with
  | zero => exact .ok () h
  | succ fuel ih =>
    have hrun := takeRun_same text tags tags' base (hread base) h
    rw [takeRuns, takeRuns, EStateM.run_bind, EStateM.run_bind]
    generalize (takeRun ⟨text, tags⟩ base (read (text.drop base))).run c = result at hrun ⊢
    generalize (takeRun ⟨text, tags'⟩ base (read (text.drop base))).run c' = result' at hrun ⊢
    cases hrun with
    | ok resume h1 =>
      cases resume with
      | none => exact .ok () h1
      | some resume => exact ih resume h1
    | error fault c1 c1' => exact .error fault c1 c1'

theorem load_same {read : EventSource} (hread : ∀ base, (read (text.drop base)).IsNested) :
    (∃ raws raws', load read tags text = .ok raws ∧ load read tags' text = .ok raws'
      ∧ SameDocuments raws raws')
    ∨ ∃ fault, load read tags text = .error fault ∧ load read tags' text = .error fault := by
  have hstart : initial.Alike initial := ⟨rfl, rfl, rfl⟩
  have hruns := takeRuns_same text tags tags' hread (text.length + 1) 0 hstart
  unfold load
  generalize (takeRuns read ⟨text, tags⟩ (text.length + 1) 0).run initial = result at hruns ⊢
  generalize (takeRuns read ⟨text, tags'⟩ (text.length + 1) 0).run initial = result' at hruns ⊢
  cases hruns with
  | ok _ h => exact .inl ⟨_, _, rfl, rfl, h.documents⟩
  | error fault => exact .inr ⟨fault, rfl, rfl⟩

end

/-! ### parsing -/

/-- Without the signs that lead to faults, the events of a text are well-nested. -/
theorem textEvents_wellNested {text : Text} (hpercent : .char '%' ∉ text)
    (hbackslash : .char '\\' ∉ text) (base : Nat) :
    (textEvents (text.drop base)).IsWellNested := by
  obtain ⟨hnested, hhalts⟩ := textEvents_reads (text.drop base)
  refine hnested.wellNested fun fault hfault => ?_
  have hsigns : (Halt.fault fault).IsOf text.chars := (hhalts _ hfault).of_drop
  obtain ⟨sign, hsign, hmem⟩ := hsigns
  rcases Fault.mem_signs hsign with rfl | rfl
  · exact hpercent (Text.mem_chars.mp hmem)
  · exact hbackslash (Text.mem_chars.mp hmem)

/-- A document less its errors about tags. -/
def Document.withoutTagErrors (d : Document) : Document :=
  { d with errors := d.errors.filter fun e => !isTagMessage e.message }

/-- A report about a tag is neither about a key nor flagged. -/
theorem RawDiagnostic.isAboutTag_of_isMinor {d : RawDiagnostic} (h : d.isMinor = true) :
    d.isAboutTag = false := by
  rw [RawDiagnostic.isMinor_eq, Bool.or_eq_true] at h
  rcases h with hrepeat | hwarning
  · have hreason : d.reason = duplicateKey := beq_iff_eq.mp hrepeat
    have hmessage : isTagMessage duplicateKey = false := by decide
    rw [RawDiagnostic.isAboutTag, hreason, hmessage, Bool.false_and]
  · rw [RawDiagnostic.isAboutTag, hwarning, Bool.not_true, Bool.and_false]

theorem RawDiagnostic.isAboutTag_of_not_isMinor {d : RawDiagnostic} (h : d.isMinor = false) :
    d.isAboutTag = isTagMessage d.reason := by
  rw [RawDiagnostic.isMinor_eq, Bool.or_eq_false_iff] at h
  rw [RawDiagnostic.isAboutTag, h.2, Bool.not_false, Bool.and_true]

/-- Errors about tags come from reports about tags, and warnings do not. -/
theorem Document.withoutTagErrors_ofRaw (text : Text) (lineStarts : List Int) (raw : RawDocument) :
    (Document.ofRaw text lineStarts raw).withoutTagErrors
      = Document.ofRaw text lineStarts raw.untagged := by
  have hmissing : ∀ missing : Bool,
      (if missing then [(⟨noContent, raw.span, .undefined⟩ : Diagnostic)] else []).filter
          (fun e => !isTagMessage e.message)
        = if missing then [⟨noContent, raw.span, .undefined⟩] else [] := by
    intro missing
    have hmessage : isTagMessage noContent = false := by decide
    cases missing <;> simp [hmessage]
  have herrors : (Diagnostics.ofRaw text raw.diagnostics).errors.filter
        (fun e => !isTagMessage e.message)
      = (Diagnostics.ofRaw text raw.untagged.diagnostics).errors := by
    rw [Diagnostics.errors_ofRaw, Diagnostics.errors_ofRaw, List.filter_map]
    show List.map _ _ = List.map _ (List.filter _ (List.filter _ _))
    rw [List.filter_filter, List.filter_filter]
    congr 1
    apply List.filter_congr
    intro d _
    cases hminor : d.isMinor with
    | true => simp
    | false => simp [RawDiagnostic.isAboutTag_of_not_isMinor hminor, RawDiagnostic.toDiagnostic]
  have hwarnings : (Diagnostics.ofRaw text raw.diagnostics).warnings
      = (Diagnostics.ofRaw text raw.untagged.diagnostics).warnings := by
    show List.map _ (List.filter _ (List.filter _ _))
      = List.map _ (List.filter _ (List.filter _ (List.filter _ _)))
    rw [List.filter_filter, List.filter_filter, List.filter_filter]
    congr 1
    apply List.filter_congr
    intro d _
    cases hminor : d.isMinor with
    | true => simp [RawDiagnostic.isAboutTag_of_isMinor hminor]
    | false => simp
  simp only [Document.ofRaw, Document.withoutTagErrors, List.filter_append, hmissing, herrors,
    hwarnings]
  rfl

theorem SameDocuments.withoutTagErrors {raws raws' : List RawDocument}
    (h : SameDocuments raws raws') (text : Text) (lineStarts : List Int) :
    (raws.map (Document.ofRaw text lineStarts)).map Document.withoutTagErrors
      = (raws'.map (Document.ofRaw text lineStarts)).map Document.withoutTagErrors := by
  have hmap : ∀ raws : List RawDocument,
      (raws.map (Document.ofRaw text lineStarts)).map Document.withoutTagErrors
        = (raws.map RawDocument.untagged).map (Document.ofRaw text lineStarts) := by
    intro raws
    rw [List.map_map, List.map_map]
    exact List.map_congr_left fun raw _ => Document.withoutTagErrors_ofRaw text lineStarts raw
  rw [hmap, h, ← hmap]

/-- **What tags are known for changes nothing but errors about tags.**  For every reader of
well-nested events, loading gives documents for either registry, as many and in the same order, with
the same roots and warnings, and with the same errors less those about tags.  So does parsing, or it
meets the same fault for both. -/
theorem documents_independent_of_tags (text : Text) (tags tags' : TagRegistry) :
    (∀ read : EventSource, (∀ base, (read (text.drop base)).IsWellNested) →
      ∃ raws raws', load read tags text = .ok raws ∧ load read tags' text = .ok raws'
        ∧ (raws.map (Document.ofRaw text (lineStarts text))).map Document.withoutTagErrors
          = (raws'.map (Document.ofRaw text (lineStarts text))).map Document.withoutTagErrors)
    ∧ ((∃ documents documents',
        parseWith tags text = .ok documents ∧ parseWith tags' text = .ok documents'
        ∧ documents.map Document.withoutTagErrors = documents'.map Document.withoutTagErrors)
      ∨ ∃ fault, parseWith tags text = .error (.fault fault)
        ∧ parseWith tags' text = .error (.fault fault)) := by
  constructor
  · intro read hread
    obtain ⟨runs, c, hruns⟩ := @exists_runs read ⟨text, tags⟩ hread 0 initial rfl
    have hload := load_of_runs hread hruns
    rcases load_same text tags tags' fun base => (hread base).nested with
      ⟨raws, raws', hraws, hraws', hsame⟩ | ⟨fault, hfault, -⟩
    · exact ⟨raws, raws', hraws, hraws', hsame.withoutTagErrors text _⟩
    · rw [hload] at hfault
      cases hfault
  · rw [parseWith, parseWith, loadText, loadText]
    rcases load_same text tags tags' fun base => (textEvents_reads (text.drop base)).1 with
      ⟨raws, raws', hraws, hraws', hsame⟩ | ⟨fault, hfault, hfault'⟩
    · rw [hraws, hraws']
      exact .inl ⟨_, _, rfl, rfl, hsame.withoutTagErrors text _⟩
    · rw [hfault, hfault']
      exact .inr ⟨fault, rfl, rfl⟩

/-- A tag that is not known and a tag for maps, on scalars of a document that is cut short and of
the one behind it. -/
theorem documents_independent_of_tags_cut :
    let text : Text := "[!a x\n--- !a y\n"
    let tags : TagRegistry := ⟨[("!a", .mapping)]⟩
    (∀ base, (textEvents (text.drop base)).IsWellNested)
      ∧ ∃ raws raws', load textEvents .empty text = .ok raws ∧ load textEvents tags text = .ok raws'
        ∧ (raws.map (Document.ofRaw text (lineStarts text))).map Document.withoutTagErrors
          = (raws'.map (Document.ofRaw text (lineStarts text))).map Document.withoutTagErrors := by
  intro text tags
  have hread := textEvents_wellNested (show .char '%' ∉ text by decide)
    (show .char '\\' ∉ text by decide)
  exact ⟨hread, (documents_independent_of_tags text .empty tags).1 textEvents hread⟩

end YamlSpan
