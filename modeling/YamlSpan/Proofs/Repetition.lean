import YamlSpan.Document
import YamlSpan.Event.Text
import YamlSpan.Proofs.Expansion
import YamlSpan.Proofs.Reports
import YamlSpan.Proofs.Resolution

/-!
# Keys that repeat earlier ones

A key is checked when its entry is complete, against the texts of the keys before it in the same
map.  Much later the plain data of the map puts its entries into a dictionary by the same texts.  So
the two agree: an entry is reported exactly if the dictionary has its key already, and the
dictionary has as many members fewer than the map has entries as keys were reported.

* `RawNode.repeats`             the entries of a map whose key repeats an earlier one
* `KeepsLast`                   what the plain data of a map keeps of its entries
* `meaning_repeats`             the reports about keys, for every tree
* `repeats_agree_with_values`   both together, for whole documents and for those cut short
* `repeats_warned`              which of the reports become warnings

A report about a key becomes a warning unless the text at the key begins with the merge key.  That
is a test on the source of the key, which also holds of keys that only begin like it.
-/

namespace YamlSpan

/-! ### entries with a repeated key -/

/-- The place of a key: from the start of its entry to its own end, which is the start of the entry
if the key was left out. -/
def RawEntry.keySpan (e : RawEntry) : Span :=
  ⟨e.span.start, e.key.elim e.span.start fun key => key.span.stop⟩

def RawEntry.repeatReport (e : RawEntry) : RawDiagnostic := ⟨duplicateKey, e.keySpan, false⟩

/-- The entries whose key has a text that is among earlier ones or on an entry before. -/
def repeatsBehind (text : Text) : (earlier : List Text) → List RawEntry → List RawEntry
  | _, [] => []
  | earlier, e :: rest =>
    (if keyText text e.key ∈ earlier then [e] else [])
      ++ repeatsBehind text (earlier ++ [keyText text e.key]) rest

/-- The entries of a map whose key repeats an earlier one of the map. -/
def RawNode.repeats (text : Text) : RawNode → List RawEntry
  | .map _ entries => repeatsBehind text [] entries
  | _ => []

/-- The reports that nodes call for by their own entries. -/
def repeatsOf (text : Text) (nodes : List RawNode) : List RawDiagnostic :=
  (nodes.flatMap (RawNode.repeats text)).map RawEntry.repeatReport

theorem repeatsOf_append (text : Text) (a b : List RawNode) :
    repeatsOf text (a ++ b) = repeatsOf text a ++ repeatsOf text b := by
  rw [repeatsOf, List.flatMap_append, List.map_append]
  rfl

theorem mem_repeatsBehind (text : Text) (front back : List RawEntry) (e : RawEntry)
    (earlier : List Text)
    (h : keyText text e.key ∈ earlier ++ front.map fun e => keyText text e.key) :
    e ∈ repeatsBehind text earlier (front ++ e :: back) := by
  induction front generalizing earlier with
  | nil =>
    rw [List.map_nil, List.append_nil] at h
    rw [List.nil_append, repeatsBehind, if_pos h]
    exact List.mem_append_left _ List.mem_cons_self
  | cons e' front ih =>
    rw [List.cons_append, repeatsBehind]
    apply List.mem_append_right
    apply ih
    rwa [List.append_assoc, List.singleton_append]

/-- Every entry has a new key or repeats one. -/
theorem repeatsBehind_length (text : Text) (earlier : List Text) (entries : List RawEntry) :
    (((entries.map fun e => keyText text e.key).removeAll earlier).eraseDups).length
      + (repeatsBehind text earlier entries).length = entries.length := by
  induction entries generalizing earlier with
  | nil => rfl
  | cons e rest ih =>
    rw [List.map_cons, Assoc.newKeys_cons, repeatsBehind, List.length_append, List.length_cons]
    have hrest := ih (earlier ++ [keyText text e.key])
    by_cases hmem : keyText text e.key ∈ earlier
    · -- a key that is among the earlier ones changes nothing behind it
      have hsame : (rest.map fun e => keyText text e.key).removeAll (earlier ++ [keyText text e.key])
          = (rest.map fun e => keyText text e.key).removeAll earlier := by
        apply List.filter_congr
        intro key _
        simp only [List.elem_eq_mem, List.mem_append, List.mem_singleton]
        congr 2
        exact propext (or_iff_left_of_imp fun h => h ▸ hmem)
      rw [hsame] at hrest
      rw [if_pos hmem, if_pos hmem, List.length_singleton]
      omega
    · rw [if_neg hmem, if_neg hmem, List.length_cons, List.length_nil]
      omega

/-! ### the plain data of a map -/

/-- What the plain data of a map keeps of its entries: one member for each text of a key, in the
order in which the texts come first, each with the data of the last entry that has it.  So it has
one member fewer for each key that repeats an earlier one. -/
structure KeepsLast (text : Text) (entries : List RawEntry) (members : List (Text × Json)) :
    Prop where
  keys : members.map Prod.fst = (entries.map fun e => keyText text e.key).eraseDups
  last : ∀ key, members.lookup key
    = (entries.reverse.find? fun e => keyText text e.key == key).map
        fun e => (e.toProperty text).plainValue
  dropped : members.length + (repeatsBehind text [] entries).length = entries.length

/-- The first of some pairs with a key. -/
theorem lookup_map_pair (text : Text) (key : Text) (entries : List RawEntry) :
    (entries.map fun e => (keyText text e.key, (e.toProperty text).plainValue)).lookup key
      = (entries.find? fun e => keyText text e.key == key).map
          fun e => (e.toProperty text).plainValue := by
  induction entries with
  | nil => rfl
  | cons e rest ih =>
    rw [List.map_cons, Assoc.lookup_cons, ih, List.find?_cons]
    by_cases h : keyText text e.key = key
    · rw [if_pos h, beq_iff_eq.mpr h]
      rfl
    · rw [if_neg h, beq_false_of_ne h]

theorem map_value_keepsLast (text : Text) (span : Span) (entries : List RawEntry) :
    ∃ members, ((RawNode.map span entries).toNode text).value = .object members
      ∧ KeepsLast text entries members := by
  refine ⟨Assoc.ofList (propertyValues (entriesToProperties text entries)), rfl, ?_⟩
  rw [propertyValues_entries]
  have hkeys : (Assoc.ofList (entries.map fun e =>
      (keyText text e.key, (e.toProperty text).plainValue))).map Prod.fst
        = (entries.map fun e => keyText text e.key).eraseDups := by
    rw [Assoc.keys_ofList, List.map_map]
    rfl
  refine ⟨hkeys, fun key => ?_, ?_⟩
  · rw [Assoc.lookup_ofList, ← List.map_reverse, lookup_map_pair]
  · have hlength := repeatsBehind_length text [] entries
    rwa [List.removeAll_nil, ← hkeys, List.length_map] at hlength

/-! ### the reports about keys -/

section
variable (src : Source) (base : Int)

theorem repeatReports_pairEntry (text : Text) (earlier : List RawEntry) (key value : Placed) :
    repeatReports text earlier key
      = (if keyText text (pairEntry key value).key ∈ earlier.map fun e => keyText text e.key
          then [pairEntry key value] else []).map RawEntry.repeatReport := by
  have hspan : (pairEntry key value).keySpan = ⟨key.span.start, key.keyStop⟩ := by
    rw [Placed.keyStop_eq]
    rfl
  have hkey : (pairEntry key value).key = key.node := rfl
  rw [repeatReports, hkey]
  split
  · rw [List.map_singleton, RawEntry.repeatReport, hspan]
  · rfl

theorem finished_repeats (anchors : List (String × RawNode)) (anchor : Option String)
    (node : RawNode) (mark : Span) (tag : Option String) (kind : TagKind) (span : Span)
    (reports : List RawDiagnostic) :
    (finished anchors anchor node mark (tagReports src tag kind span ++ reports)).reports.filter
        RawDiagnostic.isRepeat = reports.filter RawDiagnostic.isRepeat := by
  have htag : (tagReports src tag kind span).filter RawDiagnostic.isRepeat = [] :=
    List.filter_eq_nil_iff.mpr fun d hd => by simp [(tagReports_signs src tag kind span d hd).1]
  have hanchor : (anchorReports anchors anchor mark).filter RawDiagnostic.isRepeat = [] :=
    List.filter_eq_nil_iff.mpr fun d hd => by simp [(anchorReports_signs anchors anchor mark d hd).1]
  rw [finished, List.filter_append, List.filter_append, htag, hanchor, List.nil_append,
    List.append_nil]

theorem scalarMeaning_repeats (span : Span) (value : Text) (plain : Bool)
    (anchor tag : Option String) (anchors : List (String × RawNode)) :
    (scalarMeaning src span value plain anchor tag anchors).reports.filter RawDiagnostic.isRepeat
      = [] := by
  unfold scalarMeaning
  split
  · rfl
  · split
    · exact finished_repeats src anchors anchor (.inclusion span value) span none .scalar span []
    · have h := finished_repeats src anchors anchor (.scalar span value plain tag) span tag .scalar
        span []
      rwa [List.append_nil] at h

/-- A key, a value, the report about them and what is behind, sorted by nodes and own reports. -/
theorem perm_entry {α : Type} {key key' value value' own behind nodes others : List α}
    (hkey : key.Perm key') (hvalue : value.Perm value') (hbehind : behind.Perm (nodes ++ others)) :
    (key ++ (value ++ (own ++ behind))).Perm ((key' ++ value') ++ (nodes ++ (own ++ others))) := by
  have hown : (own ++ behind).Perm (nodes ++ (own ++ others)) :=
    (hbehind.append_left own).trans (List.perm_append_comm_assoc own nodes others)
  rw [List.append_assoc]
  exact hkey.append (hvalue.append hown)

namespace EventTree

mutual

/-- The reports about keys are those that the maps of a tree call for, one for each entry whose key
repeats an earlier one of its map. -/
theorem meaning_repeats : ∀ (tree : EventTree) (anchors : List (String × RawNode)),
    ((tree.meaning src base anchors).reports.filter RawDiagnostic.isRepeat).Perm
      (repeatsOf src.text (nodes? (tree.meaning src base anchors).value.node))
  | .scalar span value plain anchor tag, anchors => by
    rw [meaning, scalarMeaning_repeats, scalarMeaning_nodes]
    unfold scalarMeaning
    split
    · exact .nil
    · split <;> exact .nil
  | .reference span name, anchors => by
    have hnone : (referenceReports anchors (span.shift base) name).filter RawDiagnostic.isRepeat
        = [] :=
      List.filter_eq_nil_iff.mpr fun d hd => by
        simp [(referenceReports_signs anchors (span.shift base) name d hd).1]
    rw [meaning, referenceMeaning, hnone]
    exact .nil
  | .sequence start anchor tag items stop, anchors => by
    rw [meaning, finished_repeats]
    have hitems := itemsMeaning_repeats items anchors
    show List.Perm _ (repeatsOf src.text (itemNodes _ ++ [RawNode.sequence _ _]))
    rw [repeatsOf_append]
    exact hitems.trans (.of_eq (List.append_nil _).symm)
  | .mapping start anchor tag pairs stop, anchors => by
    rw [meaning, finished_repeats]
    have hpairs := pairsMeaning_repeats pairs [] anchors
    show List.Perm _ (repeatsOf src.text (entryNodes _ ++ [RawNode.map _ _]))
    rw [repeatsOf_append]
    have hown : repeatsOf src.text [RawNode.map (collectionSpan base start stop)
        (pairsMeaning src base pairs [] anchors).value]
          = (repeatsBehind src.text [] (pairsMeaning src base pairs [] anchors).value).map
              RawEntry.repeatReport := by
      rw [repeatsOf, List.flatMap_singleton]
      rfl
    rw [hown]
    exact hpairs

theorem itemsMeaning_repeats : ∀ (items : List EventTree) (anchors : List (String × RawNode)),
    ((itemsMeaning src base items anchors).reports.filter RawDiagnostic.isRepeat).Perm
      (repeatsOf src.text (itemNodes (itemsMeaning src base items anchors).value))
  | [], _ => .nil
  | item :: rest, anchors => by
    have hitem := meaning_repeats item anchors
    have hrest := itemsMeaning_repeats rest (item.meaning src base anchors).anchors
    simp only [itemsMeaning, itemNodes, List.filter_append, repeatsOf_append]
    exact hitem.append hrest

theorem pairsMeaning_repeats : ∀ (pairs : List (EventTree × EventTree)) (earlier : List RawEntry)
    (anchors : List (String × RawNode)),
    ((pairsMeaning src base pairs earlier anchors).reports.filter RawDiagnostic.isRepeat).Perm
      (repeatsOf src.text (entryNodes (pairsMeaning src base pairs earlier anchors).value)
        ++ (repeatsBehind src.text (earlier.map fun e => keyText src.text e.key)
            (pairsMeaning src base pairs earlier anchors).value).map RawEntry.repeatReport)
  | [], _, _ => .nil
  | (key, value) :: rest, earlier, anchors => by
    let k := key.meaning src base anchors
    let v := value.meaning src base k.anchors
    have hkey := meaning_repeats key anchors
    have hvalue := meaning_repeats value k.anchors
    have hrest := pairsMeaning_repeats rest (earlier ++ [pairEntry k.value v.value]) v.anchors
    have hself : (repeatReports src.text earlier k.value).filter RawDiagnostic.isRepeat
        = repeatReports src.text earlier k.value :=
      List.filter_eq_self.mpr fun d hd => (repeatReports_signs src.text earlier k.value d hd).1
    have hnodes : (pairEntry k.value v.value).nodes = nodes? k.value.node ++ nodes? v.value.node :=
      rfl
    rw [List.map_append] at hrest
    simp only [pairsMeaning, entryNodes, List.filter_append, repeatsOf_append, repeatsBehind,
      List.map_append, List.append_assoc]
    rw [hself, repeatReports_pairEntry src.text earlier k.value v.value, hnodes, repeatsOf_append]
    exact perm_entry hkey hvalue hrest

end

end EventTree

end

/-- The reports about the keys of a root, and the plain data of its maps: one report for each entry
whose key repeats an earlier one of its map, and data that has exactly so many members fewer. -/
structure RepeatsAgree (text : Text) (root : Option RawNode) (reports : List RawDiagnostic) :
    Prop where
  reported : (reports.filter RawDiagnostic.isRepeat).Perm (repeatsOf text (nodes? root))
  values : ∀ span entries, RawNode.map span entries ∈ nodes? root →
    ∃ members, ((RawNode.map span entries).toNode text).value = .object members
      ∧ KeepsLast text entries members
      ∧ (members.length < entries.length ↔ (RawNode.map span entries).repeats text ≠ [])

theorem keptReports_agree (src : Source) (base : Int) (kept : Option EventTree) :
    RepeatsAgree src.text (keptRoot src base kept) (keptReports src base kept) := by
  refine ⟨?_, fun span entries _ => ?_⟩
  · cases kept with
    | none => exact .nil
    | some tree => exact tree.meaning_repeats src base []
  · obtain ⟨members, hvalue, hkeeps⟩ := map_value_keepsLast src.text span entries
    refine ⟨members, hvalue, hkeeps, ?_⟩
    have hdropped := hkeeps.dropped
    rw [RawNode.repeats, ← List.length_pos_iff]
    omega

/-! ### warnings -/

/-- Does the source of a key begin with the merge key? -/
def RawEntry.beginsMerging (text : Text) (e : RawEntry) : Bool :=
  (Text.ofString mergeKey).isPrefixOf (Text.slice text e.keySpan.start e.keySpan.stop)

theorem RawEntry.isMergeKey_repeatReport (text : Text) (e : RawEntry) :
    e.repeatReport.isMergeKey text = e.beginsMerging text := by
  show (duplicateKey == duplicateKey && _) = _
  rw [beq_self_eq_true, Bool.true_and]
  rfl

/-- The warnings about repeated keys are their reports, less those whose source begins with the
merge key. -/
theorem warnings_repeats (text : Text) (reports : List RawDiagnostic) :
    (Diagnostics.ofRaw text reports).warnings.filter (fun d => d.message == duplicateKey)
      = ((reports.filter RawDiagnostic.isRepeat).filter fun d => !d.isMergeKey text).map
          RawDiagnostic.toDiagnostic := by
  show (((reports.filter _).filter _).map _).filter _ = _
  rw [List.filter_map, List.filter_filter, List.filter_filter, List.filter_filter]
  congr 1
  apply List.filter_congr
  intro d _
  show (d.isRepeat && (d.isRepeat || d.isWarning) && !d.isMergeKey text) = _
  cases d.isRepeat with
  | true => rw [Bool.true_or, Bool.true_and, Bool.true_and, Bool.and_true]
  | false => rw [Bool.false_and, Bool.false_and, Bool.and_false]

/-- Every key that repeats an earlier one of its map has a warning of its own at its place, unless
its source begins with the merge key. -/
def WarnsOfRepeats (text : Text) (root : Option RawNode) (warnings : List Diagnostic) : Prop :=
  ∀ span front e back, RawNode.map span (front ++ e :: back) ∈ nodes? root →
    (∃ e' ∈ front, keyText text e'.key = keyText text e.key) →
    ¬ Text.ofString mergeKey <+: Text.slice text e.keySpan.start e.keySpan.stop →
    ⟨duplicateKey, e.keySpan, .undefined⟩ ∈ warnings

/-- A report about a key becomes a warning unless the source of the key begins with the merge
key. -/
theorem mem_warnings {text : Text} {e : RawEntry} {reports : List RawDiagnostic}
    (hreport : e.repeatReport ∈ reports) (hmerge : e.beginsMerging text = false) :
    ⟨duplicateKey, e.keySpan, .undefined⟩ ∈ (Diagnostics.ofRaw text reports).warnings := by
  have hkept : e.repeatReport ∈ reports.filter fun d => !d.isMergeKey text := by
    rw [List.mem_filter, e.isMergeKey_repeatReport, hmerge]
    exact ⟨hreport, rfl⟩
  have hminor : e.repeatReport.isMinor = true := by
    rw [RawDiagnostic.isMinor_eq]
    exact beq_self_eq_true duplicateKey ▸ rfl
  have hwarning := List.mem_filter.mpr ⟨hkept, hminor⟩
  exact List.mem_map_of_mem hwarning

theorem RepeatsAgree.warns {text : Text} {root : Option RawNode}
    {reports others : List RawDiagnostic} (h : RepeatsAgree text root reports)
    (hsub : reports ⊆ others) :
    WarnsOfRepeats text root (Diagnostics.ofRaw text others).warnings := by
  rintro span front e back hmap ⟨e', he', hkey⟩ hmerge
  have hentry : e ∈ repeatsBehind text [] (front ++ e :: back) := by
    apply mem_repeatsBehind
    rw [List.nil_append, ← hkey]
    exact List.mem_map_of_mem he'
  have hmem : e.repeatReport ∈ repeatsOf text (nodes? root) :=
    List.mem_map_of_mem (List.mem_flatMap.mpr ⟨_, hmap, hentry⟩)
  have hreport := (List.mem_filter.mp (h.reported.mem_iff.mpr hmem)).1
  refine mem_warnings (hsub hreport) ?_
  rwa [← Bool.not_eq_true, RawEntry.beginsMerging, List.isPrefixOf_iff_prefix]

/-! ### documents -/

namespace Assembly

variable (src : Source)

/-- **Repeated keys are reported exactly where plain data drops entries.**  Of a whole document, and
of one that a failure cuts short, there is one report for each entry whose key has the text of an
earlier one of its map, at the place of the key.  The plain data of a map has one member for each
text of a key, in order, with the data of the last entry that has it, so that it drops as many
entries as were reported. -/
theorem repeats_agree_with_values (c : Assembly) (start : Span) (tree : EventTree) :
    (∀ stop : Span, ∃ (c' : Assembly) (d : RawDocument),
      (takeAll src (.documentStart start :: (tree.events ++ [.documentEnd stop]))).run c
        = .ok () c'
      ∧ c'.documents = c.documents ++ [d]
      ∧ RepeatsAgree src.text d.root d.diagnostics)
    ∧ ∀ (read : List Event) (f : Failure), read <+: tree.events →
      ∃ (resume : Option Nat) (c' : Assembly) (d : RawDocument)
        (before after : List RawDiagnostic),
        (takeAll src (.documentStart start :: read) >>= fun _ => breakOff src f).run c
          = .ok resume c'
        ∧ c'.documents = c.documents ++ [d]
        ∧ d.diagnostics = before ++ failureReport src c.base f :: after
        ∧ RepeatsAgree src.text d.root (before ++ after) := by
  refine ⟨fun stop => ?_, fun read f hread => ?_⟩
  · exact ⟨_, _, takeAll_document src c ⟨start, tree, stop⟩, rfl,
      keptReports_agree src c.base (some tree)⟩
  · obtain ⟨resume, c', d, kept, before, after, hrun, hdocuments, hroot, hreports, hdiagnostics⟩ :=
      breakOff_kept src f c start hread
    refine ⟨resume, c', d, before, after, hrun, hdocuments, hdiagnostics, ?_⟩
    rw [hroot, ← hreports]
    exact keptReports_agree src c.base kept

/-- In `{a: 1, a: {b: 2, b: 3`, cut short, either map has one key that repeats an earlier one. -/
theorem repeats_agree_in_open_maps :
    let src : Source := ⟨"\x7ba: 1, a: \x7bb: 2, b: 3", .empty⟩
    let f := Failure.ofProblem "expected ',' or '\x7d'" ⟨"", 21, 0, 21⟩
    let scalar (start stop : Int) (c : Char) :=
      EventTree.scalar ⟨start, stop⟩ [.char c] true none none
    let tree := EventTree.mapping ⟨0, 1⟩ none none
      [(scalar 1 2 'a', scalar 4 5 '1'), (scalar 7 8 'a',
        .mapping ⟨10, 11⟩ none none [(scalar 11 12 'b', scalar 14 15 '2'),
          (scalar 17 18 'b', scalar 20 21 '3')] ⟨21, 22⟩)] ⟨22, 23⟩
    let read := tree.events.dropLast.dropLast
    read <+: tree.events
      ∧ ∃ resume c' d before after,
        (takeAll src (.documentStart ⟨0, 0⟩ :: read) >>= fun _ => breakOff src f).run initial
          = .ok resume c'
        ∧ c'.documents = [d]
        ∧ d.diagnostics = before ++ failureReport src 0 f :: after
        ∧ RepeatsAgree src.text d.root (before ++ after) := by
  intro src f scalar tree read
  have hread : read <+: tree.events := by decide
  obtain ⟨resume, c', d, before, after, hrun, hdocuments, hdiagnostics, hagree⟩ :=
    (repeats_agree_with_values src initial ⟨0, 0⟩ tree).2 read f hread
  exact ⟨hread, resume, c', d, before, after, hrun, hdocuments, hdiagnostics, hagree⟩

/-- **A repeated key draws a warning unless its source begins with the merge key.**  That is so of
a whole document and of one that a failure cuts short; a whole document has no other warnings about
keys. -/
theorem repeats_warned (c : Assembly) (start : Span) (tree : EventTree) (lineStarts : List Int) :
    (∀ stop : Span, ∃ (c' : Assembly) (d : RawDocument),
      (takeAll src (.documentStart start :: (tree.events ++ [.documentEnd stop]))).run c
        = .ok () c'
      ∧ c'.documents = c.documents ++ [d]
      ∧ WarnsOfRepeats src.text d.root (Document.ofRaw src.text lineStarts d).warnings
      ∧ ((Document.ofRaw src.text lineStarts d).warnings.filter
          fun w => w.message == duplicateKey).Perm
        ((((nodes? d.root).flatMap (RawNode.repeats src.text)).filter
          fun e => !e.beginsMerging src.text).map fun e => e.repeatReport.toDiagnostic))
    ∧ ∀ (read : List Event) (f : Failure), read <+: tree.events →
      ∃ (resume : Option Nat) (c' : Assembly) (d : RawDocument),
        (takeAll src (.documentStart start :: read) >>= fun _ => breakOff src f).run c
          = .ok resume c'
        ∧ c'.documents = c.documents ++ [d]
        ∧ WarnsOfRepeats src.text d.root (Document.ofRaw src.text lineStarts d).warnings := by
  refine ⟨fun stop => ?_, fun read f hread => ?_⟩
  · have hagree := keptReports_agree src c.base (some tree)
    refine ⟨_, _, takeAll_document src c ⟨start, tree, stop⟩, rfl, hagree.warns (List.Subset.refl _),
      ?_⟩
    show (List.filter _ (Diagnostics.ofRaw src.text _).warnings).Perm _
    rw [warnings_repeats]
    have hmerge : (fun d => !d.isMergeKey src.text) ∘ RawEntry.repeatReport
        = fun e => !e.beginsMerging src.text := by
      funext e
      exact congrArg not (e.isMergeKey_repeatReport src.text)
    have hfilter := (hagree.reported.filter fun d => !d.isMergeKey src.text).map
      RawDiagnostic.toDiagnostic
    rw [repeatsOf, List.filter_map, List.map_map, hmerge] at hfilter
    exact hfilter
  · obtain ⟨resume, c', d, kept, before, after, hrun, hdocuments, hroot, hreports, hdiagnostics⟩ :=
      breakOff_kept src f c start hread
    refine ⟨resume, c', d, hrun, hdocuments, ?_⟩
    have hagree := keptReports_agree src c.base kept
    rw [← hroot, hreports] at hagree
    have hsub : before ++ after ⊆ d.diagnostics := by
      rw [hdiagnostics]
      exact ((List.sublist_cons_self _ after).append_left before).subset
    exact hagree.warns hsub

/-- The document of `a: 1`, `a: 2`, in which the second key draws a warning. -/
theorem repeats_warned_plain_key :
    let src : Source := ⟨"a: 1\na: 2\n", .empty⟩
    let scalar (start : Int) (c : Char) :=
      EventTree.scalar ⟨start, start + 1⟩ [.char c] true none none
    let doc : EventDocument := ⟨⟨0, 0⟩, .mapping ⟨0, 0⟩ none none
      [(scalar 0 'a', scalar 3 '1'), (scalar 5 'a', scalar 8 '2')] ⟨10, 10⟩, ⟨10, 10⟩⟩
    ∃ c d, (takeAll src doc.events).run initial = .ok () c ∧ c.documents = [d]
      ∧ ⟨duplicateKey, ⟨5, 6⟩, .undefined⟩ ∈ (Document.ofRaw src.text [0, 5, 10] d).warnings := by
  intro src scalar doc
  obtain ⟨c, d, hrun, hdocuments, hwarns, -⟩ :=
    (repeats_warned src initial doc.start doc.root [0, 5, 10]).1 doc.stop
  refine ⟨c, d, hrun, hdocuments, ?_⟩
  have hstate := EStateM.Result.ok.inj (hrun.symm.trans (takeAll_document src initial doc))
  rw [hstate.2] at hdocuments
  obtain rfl : doc.toRaw src 0 = d := List.singleton_inj.mp hdocuments
  let entry (start : Int) (c : Char) : RawEntry := .mk ⟨start, start + 4⟩
    (some (.scalar ⟨start, start + 1⟩ [.char 'a'] true none))
    (some (.scalar ⟨start + 3, start + 4⟩ [.char c] true none))
  exact hwarns ⟨0, 10⟩ [entry 0 '1'] (entry 5 '2') [] (RawNode.mem_nodes (.map ⟨0, 10⟩ _))
    ⟨entry 0 '1', List.mem_cons_self, rfl⟩ (by decide)

/-- The key `<<x` is no merge key, but its source begins with one: it is repeated without a
warning. -/
theorem repeats_unwarned_prefixed_key :
    let text : Text := "<<x: 1\n<<x: 2\n"
    let src : Source := ⟨text, .empty⟩
    let key (start : Int) := EventTree.scalar ⟨start, start + 3⟩ "<<x" true none none
    let value (start : Int) (c : Char) :=
      EventTree.scalar ⟨start, start + 1⟩ [.char c] true none none
    let doc : EventDocument := ⟨⟨0, 0⟩, .mapping ⟨0, 0⟩ none none
      [(key 0, value 5 '1'), (key 7, value 12 '2')] ⟨14, 14⟩, ⟨14, 14⟩⟩
    textEvents text = ⟨doc.events, none⟩
      ∧ ∃ c d, (takeAll src doc.events).run initial = .ok () c ∧ c.documents = [d]
        ∧ ∃ span front e back, RawNode.map span (front ++ e :: back) ∈ nodes? d.root
          ∧ (∃ e' ∈ front, keyText text e'.key = keyText text e.key)
          ∧ keyText text e.key ≠ Text.ofString mergeKey
          ∧ ⟨duplicateKey, e.keySpan, .undefined⟩
            ∉ (Document.ofRaw text (lineStarts text) d).warnings := by
  intro text src key value doc
  refine ⟨by decide +kernel, _, _, takeAll_document src initial doc, rfl, ⟨0, 14⟩,
    [.mk ⟨0, 6⟩ (some (.scalar ⟨0, 3⟩ "<<x" true none))
      (some (.scalar ⟨5, 6⟩ [.char '1'] true none))],
    .mk ⟨7, 13⟩ (some (.scalar ⟨7, 10⟩ "<<x" true none))
      (some (.scalar ⟨12, 13⟩ [.char '2'] true none)), [], RawNode.mem_nodes (.map ⟨0, 14⟩ _),
    ⟨_, List.mem_cons_self, rfl⟩, by decide, ?_⟩
  have hnone : (Document.ofRaw text (lineStarts text) (doc.toRaw src 0)).warnings = [] := by
    decide +kernel
  rw [show initial.base = 0 from rfl, hnone]
  exact List.not_mem_nil

end Assembly

end YamlSpan
