import YamlSpan.Document
import YamlSpan.Proofs.Reports
import YamlSpan.Proofs.Resolution

/-!
# The errors of a document

Reports are collected in one list, at the start of a node, at its end and when an entry is complete,
and are sorted afterwards by their reasons and flags.  What remains as errors can be read off the
events alone: each event calls for at most one, for a reference to a name that no node was finished
with or for a tag that does not fit, and they come in the order of the events.

* `Event.checkedTag?`       the tag of a node that is looked up
* `errorsAt`                the error that an event calls for, given the moments in front of it
* `history_errors`          the reports of a tree that are errors, along its history
* `document_errors_exact`   all errors of a document, and when there are none
-/

namespace YamlSpan

/-! ### errors that events call for -/

/-- The tag that is looked up for a node and the kind of the node.  None is for the tag that says
nothing, nor for that of inclusions on a scalar. -/
def Event.checkedTag? : Event → Option (String × TagKind)
  | .scalar _ _ _ _ (some tag) =>
    if tag = Tag.nonSpecific ∨ tag = Tag.inclusion then none else some (tag, .scalar)
  | .sequenceStart _ _ (some tag) => if tag = Tag.nonSpecific then none else some (tag, .sequence)
  | .mappingStart _ _ (some tag) => if tag = Tag.nonSpecific then none else some (tag, .mapping)
  | _ => none

/-- What is wrong with a tag on a node of a kind: it is not known, or known for another kind. -/
def tagMistake? (tags : TagRegistry) (tag : String) (kind : TagKind) : Option String :=
  match tags.lookup tag with
  | none => some (unknownTag ++ tag ++ ">")
  | some expected =>
    if expected = kind then none
    else some (misplacedTag ++ tag ++ "> tag; it should be \"" ++ expected.name
      ++ "\", not \"" ++ kind.name ++ "\"")

/-- The error about the tag of an event. -/
def tagErrors (tags : TagRegistry) (base : Int) (event : Event) : List Diagnostic :=
  (event.checkedTag?.bind fun (tag, kind) => tagMistake? tags tag kind).toList.map
    fun message => ⟨message, event.span.shift base, .undefined⟩

/-- The error that an event calls for: about a reference to a name that no node in front of it was
finished with, or about a tag. -/
def errorsAt (tags : TagRegistry) (base : Int) (before : List Moment) (m : Moment) :
    List Diagnostic :=
  (undefinedAt base before m).map RawDiagnostic.toDiagnostic ++ tagErrors tags base m.event

def errorsOf (reports : List RawDiagnostic) : List Diagnostic :=
  (reports.filter fun d => !d.isMinor).map RawDiagnostic.toDiagnostic

theorem errorsOf_append (a b : List RawDiagnostic) :
    errorsOf (a ++ b) = errorsOf a ++ errorsOf b := by
  rw [errorsOf, List.filter_append, List.map_append]
  rfl

/-- Reports that are about no key and have no flag are all errors. -/
theorem errorsOf_eq_map {reports : List RawDiagnostic}
    (h : ∀ d ∈ reports, d.isRepeat = false ∧ d.isWarning = false) :
    errorsOf reports = reports.map RawDiagnostic.toDiagnostic := by
  rw [errorsOf, List.filter_eq_self.mpr]
  intro d hd
  rw [RawDiagnostic.isMinor_eq, (h d hd).1, (h d hd).2]
  rfl

theorem errorsOf_eq_nil {reports : List RawDiagnostic}
    (h : ∀ d ∈ reports, d.isRepeat = true ∨ d.isWarning = true) : errorsOf reports = [] := by
  rw [errorsOf, List.filter_eq_nil_iff.mpr]
  · rfl
  · intro d hd
    rcases h d hd with hsign | hsign <;> simp [RawDiagnostic.isMinor_eq, hsign]

theorem errorsOf_anchorReports (anchors : List (String × RawNode)) (anchor : Option String)
    (span : Span) : errorsOf (anchorReports anchors anchor span) = [] :=
  errorsOf_eq_nil fun d hd => .inr (anchorReports_signs anchors anchor span d hd).2.1

theorem errorsOf_repeatReports (text : Text) (earlier : List RawEntry) (key : Placed) :
    errorsOf (repeatReports text earlier key) = [] :=
  errorsOf_eq_nil fun d hd => .inl (repeatReports_signs text earlier key d hd).1

theorem errorsOf_tagReports (src : Source) (tag : Option String) (kind : TagKind) (span : Span) :
    errorsOf (tagReports src tag kind span)
      = (Assembly.tagReport? src.tags tag kind).toList.map
          fun reason => ⟨reason, span, .undefined⟩ := by
  rw [errorsOf_eq_map, tagReports, List.map_map]
  · rfl
  · intro d hd
    have hsigns := tagReports_signs src tag kind span d hd
    exact ⟨hsigns.1, hsigns.2.1⟩

/-- A tag is checked against the registry unless it says nothing. -/
theorem tagReport?_eq (tags : TagRegistry) (tag : Option String) (kind : TagKind) :
    Assembly.tagReport? tags tag kind
      = (tag.bind fun tag => if tag = Tag.nonSpecific then none else some (tag, kind)).bind
          fun (tag, kind) => tagMistake? tags tag kind := by
  cases tag with
  | none => rfl
  | some tag =>
    simp only [Assembly.tagReport?, Option.bind_some]
    split <;> rfl

section
variable (src : Source) (base : Int) {before : List Moment} {anchors : List (String × RawNode)}

theorem errorsOf_referenceReports (h : Binds before anchors) (span : Span) (name : String)
    (node : Option RawNode) :
    errorsOf (referenceReports anchors (span.shift base) name)
      = errorsAt src.tags base before ⟨.reference span name, none, node⟩ := by
  have hsame : referenceReports anchors (span.shift base) name
      = undefinedAt base before ⟨.reference span name, none, node⟩ := by
    rw [referenceReports, h name]
    rfl
  rw [errorsOf_eq_map, hsame, errorsAt]
  · exact (List.append_nil _).symm
  · intro d hd
    have hsigns := referenceReports_signs anchors (span.shift base) name d hd
    exact ⟨hsigns.1, hsigns.2.1⟩

/-- An event other than a reference calls for errors about its tag only. -/
theorem errorsAt_of_not_reference {m : Moment}
    (h : ∀ span name, m.event ≠ .reference span name) :
    errorsAt src.tags base before m = tagErrors src.tags base m.event := by
  rw [errorsAt, undefinedAt_of_not_reference base h]
  rfl

theorem errorsOf_finished (anchor : Option String) (node : RawNode) (mark : Span)
    (reports : List RawDiagnostic) :
    errorsOf (finished anchors anchor node mark reports).reports = errorsOf reports := by
  rw [finished, errorsOf_append, errorsOf_anchorReports, List.append_nil]

theorem scalarMeaning_errors (span : Span) (value : Text) (plain : Bool)
    (anchor tag : Option String) :
    errorsOf (scalarMeaning src (span.shift base) value plain anchor tag anchors).reports
      = tagErrors src.tags base (.scalar span value plain anchor tag) := by
  unfold scalarMeaning
  split
  · rename_i hout
    rw [hout.2.2.2.1]
    rfl
  · split
    · rename_i htag
      rw [errorsOf_finished, htag]
      rfl
    · rename_i htag
      rw [errorsOf_finished, errorsOf_tagReports, tagReport?_eq, tagErrors]
      cases tag with
      | none => rfl
      | some tag =>
        have hother : tag ≠ Tag.inclusion := fun h => htag (congrArg some h)
        simp only [Event.checkedTag?, Option.bind_some, hother, or_false]
        rfl

/-- A collection calls for errors about its tag where it starts, in front of those of its parts. -/
theorem collection_errors (first last : Event) {kind : TagKind} {tag : Option String}
    (hfirst : ∀ span name, first ≠ .reference span name)
    (hlast : ∀ span name, last ≠ .reference span name) (hend : last.checkedTag? = none)
    (htag : first.checkedTag?
      = tag.bind fun tag => if tag = Tag.nonSpecific then none else some (tag, kind))
    {inner : List Moment} {reports : List RawDiagnostic} {bound : List (String × RawNode)}
    (hinner : errorsOf reports
      = gather (errorsAt src.tags base) (before ++ [⟨first, none, none⟩]) inner)
    (anchor : Option String) (node : RawNode) :
    errorsOf (finished bound anchor node (first.span.shift base)
        (tagReports src tag kind (first.span.shift base) ++ reports)).reports
      = gather (errorsAt src.tags base) before
          (⟨first, none, none⟩ :: (inner ++ [⟨last, anchor, some node⟩])) := by
  have hstart : errorsOf (tagReports src tag kind (first.span.shift base))
      = errorsAt src.tags base before ⟨first, none, none⟩ := by
    rw [errorsOf_tagReports, tagReport?_eq, ← htag, errorsAt_of_not_reference src base hfirst]
    rfl
  have hstop : ∀ before, errorsAt src.tags base before ⟨last, anchor, some node⟩ = [] := by
    intro before
    rw [errorsAt_of_not_reference src base hlast, tagErrors, hend]
    rfl
  rw [errorsOf_finished, errorsOf_append, hstart, hinner, gather, gather_append, gather, hstop,
    gather, List.append_nil, List.append_nil]

end

/-! ### errors along a history -/

namespace EventTree

variable (src : Source) (base : Int)

mutual

/-- The errors among the reports of a tree are those that its moments call for, in order. -/
theorem history_errors : ∀ (tree : EventTree) {before : List Moment}
    {anchors : List (String × RawNode)}, Binds before anchors →
    errorsOf (tree.meaning src base anchors).reports
      = gather (errorsAt src.tags base) before (tree.history src base anchors)
  | .scalar span value plain anchor tag, _, _, _ => by
    rw [meaning, scalarMeaning_errors, history, gather, gather, List.append_nil,
      errorsAt_of_not_reference src base (m := ⟨.scalar span value plain anchor tag, anchor, _⟩)
        nofun]
  | .reference span name, _, _, h => by
    rw [meaning, history, gather, gather, List.append_nil, ← errorsOf_referenceReports src base h]
    rfl
  | .sequence start anchor tag items stop, _, _, h =>
    collection_errors src base (.sequenceStart start anchor tag) (.sequenceEnd stop) nofun nofun rfl
      (by cases tag <;> rfl) (itemHistory_errors items (h.empty _)) anchor _
  | .mapping start anchor tag pairs stop, _, _, h =>
    collection_errors src base (.mappingStart start anchor tag) (.mappingEnd stop) nofun nofun rfl
      (by cases tag <;> rfl) (pairHistory_errors pairs [] (h.empty _)) anchor _

theorem itemHistory_errors : ∀ (items : List EventTree) {before : List Moment}
    {anchors : List (String × RawNode)}, Binds before anchors →
    errorsOf (itemsMeaning src base items anchors).reports
      = gather (errorsAt src.tags base) before (itemHistory src base items anchors)
  | [], _, _, _ => rfl
  | item :: rest, before, anchors, h => by
    have hbinds := (history_traces src base item h).binds
    rw [itemsMeaning, itemHistory, gather_append, errorsOf_append, history_errors item h,
      itemHistory_errors rest hbinds]

theorem pairHistory_errors : ∀ (pairs : List (EventTree × EventTree)) (earlier : List RawEntry)
    {before : List Moment} {anchors : List (String × RawNode)}, Binds before anchors →
    errorsOf (pairsMeaning src base pairs earlier anchors).reports
      = gather (errorsAt src.tags base) before (pairHistory src base pairs earlier anchors)
  | [], _, _, _, _ => rfl
  | (key, value) :: rest, earlier, before, anchors, h => by
    have hkey := (history_traces src base key h).binds
    have hvalue := (history_traces src base value hkey).binds
    rw [pairsMeaning, pairHistory, gather_append, gather_append]
    simp only [errorsOf_append, errorsOf_repeatReports, List.nil_append]
    rw [history_errors key h, history_errors value hkey, pairHistory_errors rest _ hvalue]

end

end EventTree

/-! ### documents without errors -/

theorem gather_eq_nil_iff {α : Type} (f : List Moment → Moment → List α)
    (before moments : List Moment) :
    gather f before moments = []
      ↔ ∀ front m back, moments = front ++ m :: back → f (before ++ front) m = [] := by
  induction moments generalizing before with
  | nil => simp [gather]
  | cons m rest ih =>
    rw [gather, List.append_eq_nil_iff, ih]
    constructor
    · rintro ⟨hm, hrest⟩ front m' back hsplit
      cases front with
      | nil =>
        obtain ⟨rfl, -⟩ := List.cons.inj hsplit
        rwa [List.append_nil]
      | cons m'' front =>
        obtain ⟨rfl, htail⟩ := List.cons.inj hsplit
        have := hrest front m' back htail
        rwa [List.append_assoc, List.singleton_append] at this
    · intro h
      refine ⟨?_, fun front m' back hsplit => ?_⟩
      · have := h [] m rest rfl
        rwa [List.append_nil] at this
      · have := h (m :: front) m' back (congrArg (m :: ·) hsplit)
        rwa [List.append_assoc, List.singleton_append]

theorem tagMistake?_eq_none_iff (tags : TagRegistry) (tag : String) (kind : TagKind) :
    tagMistake? tags tag kind = none ↔ tags.lookup tag = some kind := by
  unfold tagMistake?
  split
  · rename_i hnone
    simp [hnone]
  · rename_i expected hsome
    rw [hsome]
    by_cases heq : expected = kind <;> simp [heq]

/-- An event calls for no error if it is no reference, or one to a name that a node was finished
with, and if its tag is not checked, or known for the kind of its node. -/
theorem errorsAt_eq_nil_iff (tags : TagRegistry) (base : Int) (before : List Moment) (m : Moment) :
    errorsAt tags base before m = []
      ↔ (∀ span name, m.event = .reference span name → lastFinished name before ≠ none)
        ∧ ∀ (tag : String) (kind : TagKind), m.event.checkedTag? = some (tag, kind) →
          tags.lookup tag = some kind := by
  rw [errorsAt, List.append_eq_nil_iff, List.map_eq_nil_iff, tagErrors, List.map_eq_nil_iff,
    Option.toList_eq_nil_iff]
  refine and_congr ?_ ?_
  · unfold undefinedAt
    split
    · rename_i span name hevent
      simp [hevent]
    · rename_i hevent
      exact iff_of_true rfl fun span name h => absurd h (hevent span name)
  · cases m.event.checkedTag? with
    | none => simp
    | some checked =>
      obtain ⟨tag, kind⟩ := checked
      simp [tagMistake?_eq_none_iff]

/-- Only a scalar that was left out has no node. -/
theorem EventTree.meaning_eq_none_iff (src : Source) (base : Int) (tree : EventTree)
    (anchors : List (String × RawNode)) :
    (tree.meaning src base anchors).value.node = none ↔ ∃ place, tree = .leftOut place := by
  constructor
  · cases tree with
    | scalar span value plain anchor tag =>
      intro h
      rw [meaning] at h
      unfold scalarMeaning at h
      split at h
      · rename_i hout
        obtain ⟨rfl, rfl, rfl, rfl, hwidth⟩ := hout
        obtain ⟨start, stop⟩ := span
        obtain rfl : start = stop := by simpa [Span.shift] using hwidth
        exact ⟨start, rfl⟩
      · split at h <;> cases h
    | reference span name =>
      intro h
      cases h
    | sequence start anchor tag items stop =>
      intro h
      cases h
    | mapping start anchor tag pairs stop =>
      intro h
      cases h
  · rintro ⟨place, rfl⟩
    simp [leftOut, meaning, scalarMeaning, Span.shift]

namespace Assembly

/-- **The errors of a document are exactly those that it calls for.**  A document has no root if and
only if its tree is a scalar that was left out, and then its first error says so of the whole
document.  The others are those that its events call for, one after the other: for each reference
that stands for nothing, for each checked tag that is not known and for each that is known for
another kind.  So there is no error if and only if the root is there, every reference stands for
something and every checked tag is known for the kind of its node. -/
theorem document_errors_exact (src : Source) (c : Assembly) (start : Span) (tree : EventTree)
    (stop : Span) (lineStarts : List Int) :
    ∃ (c' : Assembly) (d : RawDocument) (history : List Moment),
      (takeAll src (.documentStart start :: (tree.events ++ [.documentEnd stop]))).run c
        = .ok () c'
      ∧ c'.documents = c.documents ++ [d]
      ∧ d.span = ⟨c.base + start.start, max (c.base + stop.stop) (c.base + start.start)⟩
      ∧ Resolves c.base tree.events d.root d.diagnostics history
      ∧ let doc := Document.ofRaw src.text lineStarts d
        (doc.root = none ↔ ∃ place, tree = .leftOut place)
        ∧ doc.errors = (if doc.root = none then [⟨noContent, d.span, .undefined⟩] else [])
            ++ gather (errorsAt src.tags c.base) [] history
        ∧ (doc.errors = []
          ↔ doc.root ≠ none ∧ ∀ before m after, history = before ++ m :: after →
            (∀ span name, m.event = .reference span name → lastFinished name before ≠ none)
            ∧ ∀ (tag : String) (kind : TagKind), m.event.checkedTag? = some (tag, kind) →
              src.tags.lookup tag = some kind) := by
  refine ⟨_, _, tree.history src c.base [], takeAll_document src c ⟨start, tree, stop⟩, rfl, rfl,
    tree.history_resolves src c.base, ?_⟩
  intro doc
  have hroot : doc.root = none ↔ (tree.meaning src c.base []).value.node = none :=
    Option.map_eq_none_iff
  have hfound : (Diagnostics.ofRaw src.text (tree.meaning src c.base []).reports).errors
      = gather (errorsAt src.tags c.base) [] (tree.history src c.base []) := by
    rw [Diagnostics.errors_ofRaw]
    exact tree.history_errors src c.base fun _ => rfl
  have herrors : doc.errors = (if doc.root = none then
      [⟨noContent, collectionSpan c.base start stop, .undefined⟩] else [])
        ++ gather (errorsAt src.tags c.base) [] (tree.history src c.base []) := by
    rw [← hfound]
    simp only [hroot, ← Option.isNone_iff_eq_none]
    rfl
  refine ⟨hroot.trans (tree.meaning_eq_none_iff src c.base []), herrors, ?_⟩
  rw [herrors, List.append_eq_nil_iff, gather_eq_nil_iff]
  refine and_congr ?_ ?_
  · by_cases hnone : doc.root = none <;> simp [hnone]
  · simp only [errorsAt_eq_nil_iff, List.nil_append]

end Assembly

end YamlSpan
