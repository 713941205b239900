import YamlSpan.Proofs.EventTree

/-!
# What a report is about

Four checks report on a document: of tags, of anchors, of references and of keys.  Which of them a
report comes from can be read off its reason and its flag, and so can what becomes of it: reports
about keys and flagged ones end as warnings or are dropped, and all others are errors.

* `RawDiagnostic.isRepeat`     a report about a key that repeats an earlier one
* `RawDiagnostic.isAboutTag`   a report about the tag of a node
* `tagReports_signs`, `anchorReports_signs`, `referenceReports_signs`, `repeatReports_signs`
                               the signs of the reports of each check
* `Diagnostics.errors_ofRaw`   the reports that become errors
-/

namespace YamlSpan

/-- How a message about a tag begins: no kind is known for it, or another one. -/
def unknownTag : String := "unknown tag !<"
def misplacedTag : String := "unacceptable node kind for !<"

/-- Is a message about the tag of a node? -/
def isTagMessage (message : String) : Bool :=
  unknownTag.toList.isPrefixOf message.toList || misplacedTag.toList.isPrefixOf message.toList

namespace RawDiagnostic

def isRepeat (d : RawDiagnostic) : Bool := d.reason == duplicateKey

def isAboutTag (d : RawDiagnostic) : Bool := isTagMessage d.reason && !d.isWarning

theorem isMinor_eq (d : RawDiagnostic) : d.isMinor = (d.isRepeat || d.isWarning) := rfl

end RawDiagnostic

/-! ### the four checks -/

theorem tagReports_signs (src : Source) (tag : Option String) (kind : TagKind) (span : Span) :
    ∀ d ∈ tagReports src tag kind span,
      d.isRepeat = false ∧ d.isWarning = false ∧ d.isAboutTag = true := by
  intro d hd
  obtain ⟨reason, hreason, rfl⟩ := List.mem_map.mp hd
  rw [Option.mem_toList] at hreason
  unfold Assembly.tagReport? at hreason
  split at hreason
  · cases hreason
  · split at hreason
    · cases hreason
    · split at hreason
      · obtain rfl := Option.some.inj hreason
        simp [RawDiagnostic.isRepeat, duplicateKey, ← String.toList_inj, RawDiagnostic.isAboutTag,
          isTagMessage, unknownTag]
      · split at hreason
        · cases hreason
        · obtain rfl := Option.some.inj hreason
          simp [RawDiagnostic.isRepeat, duplicateKey, ← String.toList_inj,
            RawDiagnostic.isAboutTag, isTagMessage, misplacedTag]

theorem anchorReports_signs (anchors : List (String × RawNode)) (anchor : Option String)
    (span : Span) : ∀ d ∈ anchorReports anchors anchor span,
      d.isRepeat = false ∧ d.isWarning = true ∧ d.isAboutTag = false := by
  intro d hd
  unfold anchorReports at hd
  split at hd
  · cases hd
  · split at hd
    · obtain rfl := List.mem_singleton.mp hd
      simp [RawDiagnostic.isRepeat, duplicateKey, ← String.toList_inj, RawDiagnostic.isAboutTag]
    · cases hd

theorem referenceReports_signs (anchors : List (String × RawNode)) (span : Span) (name : String) :
    ∀ d ∈ referenceReports anchors span name,
      d.isRepeat = false ∧ d.isWarning = false ∧ d.isAboutTag = false := by
  intro d hd
  unfold referenceReports at hd
  split at hd
  · obtain rfl := List.mem_singleton.mp hd
    simp [RawDiagnostic.isRepeat, duplicateKey, ← String.toList_inj, RawDiagnostic.isAboutTag,
      isTagMessage, unknownTag, misplacedTag, List.isPrefixOf]
  · cases hd

theorem repeatReports_signs (text : Text) (earlier : List RawEntry) (key : Placed) :
    ∀ d ∈ repeatReports text earlier key,
      d.isRepeat = true ∧ d.isWarning = false ∧ d.isAboutTag = false := by
  intro d hd
  unfold repeatReports at hd
  split at hd
  · obtain rfl := List.mem_singleton.mp hd
    have htag : isTagMessage duplicateKey = false := by decide
    exact ⟨beq_self_eq_true _, rfl, by rw [RawDiagnostic.isAboutTag, htag, Bool.false_and]⟩
  · cases hd

/-! ### errors -/

/-- The errors are the reports that are no more than warnings left out: the merge keys that are
dropped are among those. -/
theorem Diagnostics.errors_ofRaw (text : Text) (reports : List RawDiagnostic) :
    (Diagnostics.ofRaw text reports).errors
      = (reports.filter fun d => !d.isMinor).map RawDiagnostic.toDiagnostic := by
  show ((reports.filter _).filter _).map _ = _
  rw [List.filter_filter]
  congr 1
  apply List.filter_congr
  intro d _
  cases hrepeat : d.isRepeat with
  | true => simp [RawDiagnostic.isMinor_eq, hrepeat]
  | false =>
    have hmerge : d.isMergeKey text = false := by
      show (d.isRepeat && _) = false
      rw [hrepeat, Bool.false_and]
    rw [hmerge, Bool.not_false, Bool.and_true]

end YamlSpan
