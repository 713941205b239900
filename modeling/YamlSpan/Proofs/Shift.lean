import Mathlib.Order.MinMax
import YamlSpan.Proofs.Closing
import YamlSpan.Proofs.Spans

/-!
# Meanings in the rest of a text

Events that were read from the rest of a text have a meaning in that rest and one in the whole text,
where the rest has characters in front.  The second is the first, moved: the anchors, the nodes and
the reports are the same but for their spans.  Key texts are taken from the source, so this holds
as long as no span has a part in front of the rest.  The spans of a meaning end where spans of its
events end, so a property of all these ends is one of the meaning.

* `EventTree.meaning_hasEnds`  the ends of the spans of a meaning
* `EventTree.meaning_nonneg`   the spans of a meaning are not in front of the text
* `EventTree.meaning_shift`    the meaning of a tree moves with the text
* `layerStack_shift`           what was reported and bound inside of open layers moves too
-/

namespace YamlSpan

open EventTree

/-- What is left of a source behind an offset. -/
def Source.drop (o : Nat) (src : Source) : Source := ⟨src.text.drop o, src.tags⟩

theorem Source.length_drop (o : Nat) (src : Source) :
    (src.drop o).text.length = src.text.length - o := List.length_drop

def Placed.shift (offset : Int) (p : Placed) : Placed := ⟨shift? offset p.node, p.span.shift offset⟩

def shiftAnchors (offset : Int) (anchors : List (String × RawNode)) : List (String × RawNode) :=
  anchors.map fun (name, node) => (name, node.shift offset)

/-- A meaning in a text with `offset` characters in front, where `move` moves its value. -/
def Meaning.shift {α : Type} (offset : Int) (move : α → α) (m : Meaning α) : Meaning α :=
  ⟨move m.value, shiftAnchors offset m.anchors, m.reports.map (RawDiagnostic.shift offset)⟩

/-! ### the ends of the spans of a meaning -/

/-- Both ends of a span have a property. -/
def Span.HasEnds (q : Int → Prop) (s : Span) : Prop := q s.start ∧ q s.stop

/-- All spans of the nodes that anchors are bound to have ends with a property. -/
def AnchorsHaveEnds (q : Int → Prop) (anchors : List (String × RawNode)) : Prop :=
  ∀ bound ∈ anchors, bound.2.AllSpans (Span.HasEnds q)

/-- So have the place of a node and all spans of the node. -/
def Placed.HasEnds (q : Int → Prop) (p : Placed) : Prop :=
  p.span.HasEnds q ∧ AllSpans? (Span.HasEnds q) p.node

theorem Assoc.mem_put {κ α : Type} [DecidableEq κ] {key : κ} {value : α} {pair : κ × α} :
    ∀ {pairs : List (κ × α)}, pair ∈ Assoc.put key value pairs → pair.2 = value ∨ pair ∈ pairs
  | [], h => by
    rw [Assoc.put, List.mem_singleton] at h
    exact .inl (by rw [h])
  | (k, v) :: rest, h => by
    rw [Assoc.put] at h
    split at h
    · rcases List.mem_cons.mp h with rfl | hrest
      · exact .inl rfl
      · exact .inr (List.mem_cons_of_mem _ hrest)
    · rcases List.mem_cons.mp h with rfl | hrest
      · exact .inr List.mem_cons_self
      · exact (Assoc.mem_put hrest).imp id (List.mem_cons_of_mem _)

section
variable {q : Int → Prop}

theorem collectionSpan_hasEnds {base : Int} {start stop : Span}
    (hstart : (start.shift base).HasEnds q) (hstop : (stop.shift base).HasEnds q) :
    (collectionSpan base start stop).HasEnds q :=
  ⟨hstart.1, max_rec' q hstop.2 hstart.1⟩

theorem Placed.HasEnds.keyStop {p : Placed} (h : p.HasEnds q) : q p.keyStop := by
  obtain ⟨node, span⟩ := p
  cases node with
  | none => exact h.1.1
  | some node => exact h.2.span.2

theorem pairEntry_hasEnds {key value : Placed} (hkey : key.HasEnds q) (hvalue : value.HasEnds q) :
    (pairEntry key value).AllSpans (Span.HasEnds q) :=
  ⟨⟨hkey.1.1, max_rec' q hvalue.1.2 hkey.keyStop⟩, hkey.2, hvalue.2⟩

theorem finished_hasEnds {anchors : List (String × RawNode)} (ha : AnchorsHaveEnds q anchors)
    (node : RawNode) (hnode : node.AllSpans (Span.HasEnds q)) (anchor : Option String)
    (mark : Span) (reports : List RawDiagnostic) :
    let m := finished anchors anchor node mark reports
    m.value.HasEnds q ∧ AnchorsHaveEnds q m.anchors := by
  refine ⟨⟨hnode.span, hnode⟩, ?_⟩
  cases anchor with
  | none => exact ha
  | some name =>
    intro bound hbound
    rcases Assoc.mem_put hbound with h | h
    · rw [h]
      exact hnode
    · exact ha bound h

theorem scalarMeaning_hasEnds (src : Source) {span : Span} (hspan : span.HasEnds q) (value : Text)
    (plain : Bool) (anchor tag : Option String) {anchors : List (String × RawNode)}
    (ha : AnchorsHaveEnds q anchors) :
    let m := scalarMeaning src span value plain anchor tag anchors
    m.value.HasEnds q ∧ AnchorsHaveEnds q m.anchors := by
  unfold scalarMeaning
  split
  · exact ⟨⟨hspan, trivial⟩, ha⟩
  · split
    · exact finished_hasEnds ha (.inclusion span value) hspan anchor span []
    · exact finished_hasEnds ha (.scalar span value plain tag) hspan anchor span _

theorem referenceMeaning_hasEnds {span : Span} (hspan : span.HasEnds q) (name : String)
    {anchors : List (String × RawNode)} (ha : AnchorsHaveEnds q anchors) :
    let m := referenceMeaning span name anchors
    m.value.HasEnds q ∧ AnchorsHaveEnds q m.anchors := by
  refine ⟨⟨hspan, hspan, ?_⟩, ha⟩
  cases h : anchors.lookup name with
  | none => trivial
  | some node =>
    obtain ⟨front, back, rfl, _⟩ := List.lookup_eq_some_iff.mp h
    exact ha _ (List.mem_append_right front List.mem_cons_self)

namespace EventTree

mutual

/-- The spans of a meaning end where spans of events end. -/
theorem meaning_hasEnds (src : Source) (base : Int) :
    ∀ (tree : EventTree) {anchors : List (String × RawNode)}, AnchorsHaveEnds q anchors →
      (∀ event ∈ tree.events, (event.span.shift base).HasEnds q) →
      (tree.meaning src base anchors).value.HasEnds q
        ∧ AnchorsHaveEnds q (tree.meaning src base anchors).anchors
  | .scalar span value plain anchor tag, anchors, ha, h =>
    scalarMeaning_hasEnds src (h _ List.mem_cons_self) value plain anchor tag ha
  | .reference span name, anchors, ha, h =>
    referenceMeaning_hasEnds (h _ List.mem_cons_self) name ha
  | .sequence start anchor tag items stop, anchors, ha, h => by
    obtain ⟨hstart, hrest⟩ := List.forall_mem_cons.mp h
    obtain ⟨hinner, hstop⟩ := List.forall_mem_append.mp hrest
    obtain ⟨hitems, hanchors⟩ := itemsMeaning_hasEnds src base items ha hinner
    have hnode : (RawNode.sequence (collectionSpan base start stop)
        (itemsMeaning src base items anchors).value).AllSpans (Span.HasEnds q) :=
      ⟨collectionSpan_hasEnds hstart (hstop _ List.mem_cons_self), hitems⟩
    exact finished_hasEnds hanchors _ hnode anchor _ _
  | .mapping start anchor tag pairs stop, anchors, ha, h => by
    obtain ⟨hstart, hrest⟩ := List.forall_mem_cons.mp h
    obtain ⟨hinner, hstop⟩ := List.forall_mem_append.mp hrest
    obtain ⟨hpairs, hanchors⟩ := pairsMeaning_hasEnds src base pairs [] ha hinner
    have hnode : (RawNode.map (collectionSpan base start stop)
        (pairsMeaning src base pairs [] anchors).value).AllSpans (Span.HasEnds q) :=
      ⟨collectionSpan_hasEnds hstart (hstop _ List.mem_cons_self), hpairs⟩
    exact finished_hasEnds hanchors _ hnode anchor _ _

theorem itemsMeaning_hasEnds (src : Source) (base : Int) :
    ∀ (items : List EventTree) {anchors : List (String × RawNode)}, AnchorsHaveEnds q anchors →
      (∀ event ∈ itemEvents items, (event.span.shift base).HasEnds q) →
      AllItems (Span.HasEnds q) (itemsMeaning src base items anchors).value
        ∧ AnchorsHaveEnds q (itemsMeaning src base items anchors).anchors
  | [], anchors, ha, _ => ⟨trivial, ha⟩
  | item :: rest, anchors, ha, h => by
    obtain ⟨hitem, hrest⟩ := List.forall_mem_append.mp h
    obtain ⟨hvalue, hanchors⟩ := meaning_hasEnds src base item ha hitem
    obtain ⟨hvalues, hanchors'⟩ := itemsMeaning_hasEnds src base rest hanchors hrest
    exact ⟨⟨hvalue.2, hvalues⟩, hanchors'⟩

theorem pairsMeaning_hasEnds (src : Source) (base : Int) :
    ∀ (pairs : List (EventTree × EventTree)) (earlier : List RawEntry)
      {anchors : List (String × RawNode)}, AnchorsHaveEnds q anchors →
      (∀ event ∈ pairEvents pairs, (event.span.shift base).HasEnds q) →
      AllEntries (Span.HasEnds q) (pairsMeaning src base pairs earlier anchors).value
        ∧ AnchorsHaveEnds q (pairsMeaning src base pairs earlier anchors).anchors
  | [], _, anchors, ha, _ => ⟨trivial, ha⟩
  | (key, value) :: rest, earlier, anchors, ha, h => by
    obtain ⟨hkey, hmore⟩ := List.forall_mem_append.mp h
    obtain ⟨hvalue, hrest⟩ := List.forall_mem_append.mp hmore
    obtain ⟨hk, hka⟩ := meaning_hasEnds src base key ha hkey
    obtain ⟨hv, hva⟩ := meaning_hasEnds src base value hka hvalue
    obtain ⟨hothers, hoa⟩ := pairsMeaning_hasEnds src base rest _ hva hrest
    exact ⟨⟨pairEntry_hasEnds hk hv, hothers⟩, hoa⟩

end

end EventTree

end

/-! ### spans that are not in front of the text -/

def AnchorsNonneg (anchors : List (String × RawNode)) : Prop :=
  ∀ bound ∈ anchors, bound.2.AllSpans Span.IsNonneg

/-- A node in a place that is not in front of the text, with no span below it in front. -/
def Placed.IsNonneg (p : Placed) : Prop := p.span.IsNonneg ∧ AllSpans? Span.IsNonneg p.node

theorem Span.IsNonneg.shift {s : Span} (h : s.IsNonneg) {offset : Int} (ho : 0 ≤ offset) :
    (s.shift offset).IsNonneg := by
  obtain ⟨hstart, hstop⟩ := h
  show 0 ≤ offset + s.start ∧ 0 ≤ offset + s.stop
  omega

theorem pairEntry_nonneg {key value : Placed} (hkey : key.IsNonneg) (hvalue : value.IsNonneg) :
    (pairEntry key value).AllSpans Span.IsNonneg :=
  @pairEntry_hasEnds (0 ≤ ·) key value hkey hvalue

namespace EventTree

section
variable (src : Source) {base : Int} (hbase : 0 ≤ base) {anchors : List (String × RawNode)}
include hbase

/-- The meaning of a tree whose events are not in front of the text has no span in front. -/
theorem meaning_nonneg (tree : EventTree) (ha : AnchorsNonneg anchors)
    (h : ∀ event ∈ tree.events, event.span.IsNonneg) :
    (tree.meaning src base anchors).value.IsNonneg
      ∧ AnchorsNonneg (tree.meaning src base anchors).anchors :=
  @meaning_hasEnds (0 ≤ ·) src base tree anchors ha fun event hevent => (h event hevent).shift hbase

theorem itemsMeaning_nonneg (items : List EventTree) (ha : AnchorsNonneg anchors)
    (h : ∀ event ∈ itemEvents items, event.span.IsNonneg) :
    AllItems Span.IsNonneg (itemsMeaning src base items anchors).value
      ∧ AnchorsNonneg (itemsMeaning src base items anchors).anchors :=
  @itemsMeaning_hasEnds (0 ≤ ·) src base items anchors ha
    fun event hevent => (h event hevent).shift hbase

theorem pairsMeaning_nonneg (pairs : List (EventTree × EventTree)) (earlier : List RawEntry)
    (ha : AnchorsNonneg anchors) (h : ∀ event ∈ pairEvents pairs, event.span.IsNonneg) :
    AllEntries Span.IsNonneg (pairsMeaning src base pairs earlier anchors).value
      ∧ AnchorsNonneg (pairsMeaning src base pairs earlier anchors).anchors :=
  @pairsMeaning_hasEnds (0 ≤ ·) src base pairs earlier anchors ha
    fun event hevent => (h event hevent).shift hbase

end

end EventTree

/-! ### pieces of meanings move with the text -/

theorem Span.shift_add (s : Span) (offset base : Int) :
    s.shift (offset + base) = (s.shift base).shift offset := by
  simp only [Span.shift, Int.add_assoc]

theorem collectionSpan_shift (offset base : Int) (start stop : Span) :
    collectionSpan (offset + base) start stop = (collectionSpan base start stop).shift offset := by
  simp only [collectionSpan, Span.shift, Int.add_assoc, Span.mk.injEq, true_and]
  omega

theorem shift?_isSome (offset : Int) (node : Option RawNode) :
    (shift? offset node).isSome = node.isSome := by
  cases node <;> rfl

section
variable (offset : Int) (anchors : List (String × RawNode))

theorem lookup_shift (name : String) :
    (shiftAnchors offset anchors).lookup name = shift? offset (anchors.lookup name) := by
  induction anchors with
  | nil => rfl
  | cons bound rest ih =>
    obtain ⟨other, node⟩ := bound
    show List.lookup name ((other, node.shift offset) :: shiftAnchors offset rest) = _
    rw [List.lookup_cons, List.lookup_cons]
    by_cases h : name == other
    · rw [h]
      rfl
    · rw [Bool.not_eq_true] at h
      rw [h]
      exact ih

theorem put_shift (name : String) (node : RawNode) :
    Assoc.put name (node.shift offset) (shiftAnchors offset anchors)
      = shiftAnchors offset (Assoc.put name node anchors) := by
  induction anchors with
  | nil => rfl
  | cons bound rest ih =>
    obtain ⟨other, first⟩ := bound
    show Assoc.put name (node.shift offset)
      ((other, first.shift offset) :: shiftAnchors offset rest) = _
    by_cases h : other = name
    · rw [Assoc.put, Assoc.put, if_pos h, if_pos h]
      rfl
    · rw [Assoc.put, Assoc.put, if_neg h, if_neg h, ih]
      rfl

theorem anchorReports_shift (anchor : Option String) (span : Span) :
    anchorReports (shiftAnchors offset anchors) anchor (span.shift offset)
      = (anchorReports anchors anchor span).map (RawDiagnostic.shift offset) := by
  cases anchor with
  | none => rfl
  | some name =>
    simp only [anchorReports, lookup_shift, shift?_isSome]
    split <;> rfl

theorem referenceReports_shift (span : Span) (name : String) :
    referenceReports (shiftAnchors offset anchors) (span.shift offset) name
      = (referenceReports anchors span name).map (RawDiagnostic.shift offset) := by
  unfold referenceReports
  rw [lookup_shift, ← Option.not_isSome, shift?_isSome, Option.not_isSome]
  split <;> rfl

theorem finished_shift (anchor : Option String) (node : RawNode) (mark : Span)
    (reports : List RawDiagnostic) :
    finished (shiftAnchors offset anchors) anchor (node.shift offset) (mark.shift offset)
        (reports.map (RawDiagnostic.shift offset))
      = (finished anchors anchor node mark reports).shift offset (Placed.shift offset) := by
  have hbind : bindTo (shiftAnchors offset anchors) anchor (node.shift offset)
      = shiftAnchors offset (bindTo anchors anchor node) := by
    cases anchor with
    | none => rfl
    | some name => exact put_shift offset anchors name node
  simp only [finished, Meaning.shift, Placed.shift, hbind, anchorReports_shift, node.span_shift,
    List.map_append]
  rfl

theorem referenceMeaning_shift (span : Span) (name : String) :
    referenceMeaning (span.shift offset) name (shiftAnchors offset anchors)
      = (referenceMeaning span name anchors).shift offset (Placed.shift offset) := by
  rw [referenceMeaning, lookup_shift, referenceReports_shift]
  rfl

end

theorem tagReports_shift (src : Source) (o : Nat) (tag : Option String) (kind : TagKind)
    (span : Span) :
    tagReports src tag kind (span.shift o)
      = (tagReports (src.drop o) tag kind span).map (RawDiagnostic.shift o) := by
  rw [tagReports, tagReports, List.map_map]
  rfl

theorem scalarMeaning_shift (src : Source) (o : Nat) (span : Span) (value : Text) (plain : Bool)
    (anchor tag : Option String) (anchors : List (String × RawNode)) :
    scalarMeaning src (span.shift o) value plain anchor tag (shiftAnchors o anchors)
      = (scalarMeaning (src.drop o) span value plain anchor tag anchors).shift o
          (Placed.shift o) := by
  have hwidth : (span.shift o).start = (span.shift o).stop ↔ span.start = span.stop := by
    show (o : Int) + span.start = o + span.stop ↔ _
    omega
  unfold scalarMeaning
  simp only [hwidth]
  split
  · rfl
  · split
    · exact finished_shift o anchors anchor (.inclusion span value) span []
    · rw [tagReports_shift]
      exact finished_shift o anchors anchor (.scalar span value plain tag) span _

theorem Placed.keyStop_shift (offset : Int) (p : Placed) :
    (p.shift offset).keyStop = offset + p.keyStop := by
  obtain ⟨node, span⟩ := p
  cases node with
  | none => rfl
  | some node =>
    show (node.shift offset).span.stop = _
    rw [node.span_shift]
    rfl

theorem pairEntry_shift (offset : Int) (key value : Placed) :
    pairEntry (key.shift offset) (value.shift offset) = (pairEntry key value).shift offset := by
  have hstop : max (offset + value.span.stop) (offset + key.keyStop)
      = offset + max value.span.stop key.keyStop := by omega
  rw [pairEntry, Placed.keyStop_shift]
  show RawEntry.mk ⟨offset + key.span.start, max (offset + value.span.stop) _⟩ _ _ = _
  rw [hstop]
  rfl

theorem repeatReports_shift {text : Text} {o : Nat} (ho : o ≤ text.length) {earlier : List RawEntry}
    (hearlier : ∀ e ∈ earlier, e.AllSpans Span.IsNonneg) {key : Placed} (hkey : key.IsNonneg) :
    repeatReports text (shiftEntries o earlier) (key.shift o)
      = (repeatReports (text.drop o) earlier key).map (RawDiagnostic.shift o) := by
  have hkeys : (shiftEntries o earlier).map (fun e => keyText text e.key)
      = earlier.map fun e => keyText (text.drop o) e.key := by
    rw [shiftEntries_eq_map, List.map_map]
    refine List.map_congr_left fun e he => ?_
    show keyText text (e.shift o).key = _
    rw [e.key_shift, keyText_shift? ho e.key (hearlier e he).key]
  have htext : keyText text (key.shift o).node = keyText (text.drop o) key.node :=
    keyText_shift? ho key.node hkey.2
  rw [repeatReports, repeatReports, hkeys, htext, Placed.keyStop_shift]
  split <;> rfl

namespace EventTree

mutual

/-- The meaning of a tree moves with the text. -/
theorem meaning_shift (src : Source) {o : Nat} (ho : o ≤ src.text.length) {base : Int}
    (hbase : 0 ≤ base) : ∀ (tree : EventTree) {anchors : List (String × RawNode)},
      AnchorsNonneg anchors → (∀ event ∈ tree.events, event.span.IsNonneg) →
      tree.meaning src (o + base) (shiftAnchors o anchors)
        = (tree.meaning (src.drop o) base anchors).shift o (Placed.shift o)
  | .scalar span value plain anchor tag, anchors, ha, h => by
    rw [meaning, Span.shift_add, scalarMeaning_shift]
    rfl
  | .reference span name, anchors, ha, h => by
    rw [meaning, Span.shift_add, referenceMeaning_shift]
    rfl
  | .sequence start anchor tag items stop, anchors, ha, h => by
    obtain ⟨_, hrest⟩ := List.forall_mem_cons.mp h
    have hitems := itemsMeaning_shift src ho hbase items ha (List.forall_mem_append.mp hrest).1
    rw [meaning, meaning, hitems, Span.shift_add, collectionSpan_shift, tagReports_shift]
    simp only [Meaning.shift]
    rw [← List.map_append]
    exact finished_shift o _ anchor (.sequence _ _) _ _
  | .mapping start anchor tag pairs stop, anchors, ha, h => by
    obtain ⟨_, hrest⟩ := List.forall_mem_cons.mp h
    have hpairs := pairsMeaning_shift src ho hbase pairs [] ha nofun
      (List.forall_mem_append.mp hrest).1
    rw [shiftEntries] at hpairs
    rw [meaning, meaning, hpairs, Span.shift_add, collectionSpan_shift, tagReports_shift]
    simp only [Meaning.shift]
    rw [← List.map_append]
    exact finished_shift o _ anchor (.map _ _) _ _

theorem itemsMeaning_shift (src : Source) {o : Nat} (ho : o ≤ src.text.length) {base : Int}
    (hbase : 0 ≤ base) : ∀ (items : List EventTree) {anchors : List (String × RawNode)},
      AnchorsNonneg anchors → (∀ event ∈ itemEvents items, event.span.IsNonneg) →
      itemsMeaning src (o + base) items (shiftAnchors o anchors)
        = (itemsMeaning (src.drop o) base items anchors).shift o (shiftItems o)
  | [], anchors, ha, _ => rfl
  | item :: rest, anchors, ha, h => by
    obtain ⟨hitem, hrest⟩ := List.forall_mem_append.mp h
    have hfirst := meaning_shift src ho hbase item ha hitem
    have hanchors := (meaning_nonneg (src.drop o) hbase item ha hitem).2
    have hothers := itemsMeaning_shift src ho hbase rest hanchors hrest
    rw [itemsMeaning, itemsMeaning, hfirst]
    simp only [Meaning.shift] at hothers ⊢
    rw [hothers, List.map_append]
    rfl

theorem pairsMeaning_shift (src : Source) {o : Nat} (ho : o ≤ src.text.length) {base : Int}
    (hbase : 0 ≤ base) : ∀ (pairs : List (EventTree × EventTree)) (earlier : List RawEntry)
      {anchors : List (String × RawNode)}, AnchorsNonneg anchors →
      (∀ e ∈ earlier, e.AllSpans Span.IsNonneg) →
      (∀ event ∈ pairEvents pairs, event.span.IsNonneg) →
      pairsMeaning src (o + base) pairs (shiftEntries o earlier) (shiftAnchors o anchors)
        = (pairsMeaning (src.drop o) base pairs earlier anchors).shift o (shiftEntries o)
  | [], _, anchors, ha, _, _ => rfl
  | (key, value) :: rest, earlier, anchors, ha, hearlier, h => by
    obtain ⟨hkey, hmore⟩ := List.forall_mem_append.mp h
    obtain ⟨hvalue, hrest⟩ := List.forall_mem_append.mp hmore
    obtain ⟨hk, hka⟩ := meaning_nonneg (src.drop o) hbase key ha hkey
    obtain ⟨hv, hva⟩ := meaning_nonneg (src.drop o) hbase value hka hvalue
    have hkmove := meaning_shift src ho hbase key ha hkey
    have hvmove := meaning_shift src ho hbase value hka hvalue
    have hall := List.forall_mem_append.mpr
      ⟨hearlier, List.forall_mem_singleton.mpr (pairEntry_nonneg hk hv)⟩
    have hothers := pairsMeaning_shift src ho hbase rest _ hva hall hrest
    have hrepeat := repeatReports_shift ho hearlier hk
    rw [shiftEntries_eq_map, List.map_append, ← shiftEntries_eq_map] at hothers
    rw [pairsMeaning, pairsMeaning, hkmove]
    simp only [Meaning.shift] at hvmove hothers ⊢
    rw [hvmove]
    simp only [pairEntry_shift, hrepeat]
    rw [List.map_singleton] at hothers
    rw [hothers]
    simp only [List.map_append]
    rfl

end

end EventTree

/-! ### open layers move with the text -/

theorem Layer.opened_nonneg (src : Source) {base : Int} (hbase : 0 ≤ base) (layer : Layer)
    {anchors : List (String × RawNode)} (ha : AnchorsNonneg anchors)
    (h : ∀ event ∈ layer.events, event.span.IsNonneg) :
    AnchorsNonneg (layer.opened src base anchors).anchors := by
  cases layer with
  | sequence start anchor tag items =>
    exact (itemsMeaning_nonneg src hbase items ha (List.forall_mem_cons.mp h).2).2
  | mapping start anchor tag pairs key =>
    obtain ⟨hpairs, hkey⟩ := List.forall_mem_append.mp (List.forall_mem_cons.mp h).2
    have hinner := (pairsMeaning_nonneg src hbase pairs [] ha hpairs).2
    cases key with
    | none => exact hinner
    | some key => exact (meaning_nonneg src hbase key hinner hkey).2

theorem Layer.opened_shift (src : Source) {o : Nat} (ho : o ≤ src.text.length) {base : Int}
    (hbase : 0 ≤ base) (layer : Layer) {anchors : List (String × RawNode)}
    (ha : AnchorsNonneg anchors) (h : ∀ event ∈ layer.events, event.span.IsNonneg) :
    let m := layer.opened src (o + base) (shiftAnchors o anchors)
    let rest := layer.opened (src.drop o) base anchors
    m.anchors = shiftAnchors o rest.anchors
      ∧ m.reports = rest.reports.map (RawDiagnostic.shift o) := by
  cases layer with
  | sequence start anchor tag items =>
    have hitems := itemsMeaning_shift src ho hbase items ha (List.forall_mem_cons.mp h).2
    simp only [opened, hitems, Span.shift_add, tagReports_shift, Meaning.shift, List.map_append,
      and_self]
  | mapping start anchor tag pairs key =>
    obtain ⟨hpairs, hkey⟩ := List.forall_mem_append.mp (List.forall_mem_cons.mp h).2
    have hinner := (pairsMeaning_nonneg (src.drop o) hbase pairs [] ha hpairs).2
    have hmove := pairsMeaning_shift src ho hbase pairs [] ha nofun hpairs
    rw [shiftEntries] at hmove
    cases key with
    | none =>
      simp only [opened, hmove, Span.shift_add, tagReports_shift, Meaning.shift, List.map_append,
        and_self]
    | some key =>
      have hk := meaning_shift src ho hbase key hinner hkey
      simp only [opened, hmove, Span.shift_add, tagReports_shift, Meaning.shift, List.map_append]
      simp only [Meaning.shift] at hk
      rw [hk]
      exact ⟨rfl, rfl⟩

/-- What open layers reported moves with the text. -/
theorem layerStack_shift (src : Source) {o : Nat} (ho : o ≤ src.text.length) {base : Int}
    (hbase : 0 ≤ base) (layers : List Layer) :
    ∀ {anchors : List (String × RawNode)}, AnchorsNonneg anchors →
      (∀ event ∈ layerEvents layers, event.span.IsNonneg) →
      (layerStack src (o + base) layers (shiftAnchors o anchors)).reports
        = (layerStack (src.drop o) base layers anchors).reports.map (RawDiagnostic.shift o) := by
  induction layers with
  | nil =>
    intro anchors _ _
    rfl
  | cons layer inner ih =>
    intro anchors ha h
    obtain ⟨hlayer, hinner⟩ := List.forall_mem_append.mp h
    obtain ⟨hanchors, hreports⟩ := layer.opened_shift src ho hbase ha hlayer
    rw [layerStack, layerStack, hanchors, hreports,
      ih (layer.opened_nonneg (src.drop o) hbase ha hlayer) hinner, List.map_append]

end YamlSpan
