import YamlSpan.Proofs.Layers
import YamlSpan.Proofs.Refinement

/-!
# Closing what is open

After the events of some layers the stack holds one open collection for each, with the nodes that
are complete.  Closing them all at one place, innermost first, adds the node of the tree that the
layers leave: a collection that is closed becomes an item, a value or a waiting key of the one
around it, and a key that waits is completed by the next close.

* `layerStack`        the collections on the stack, with the anchors and reports so far
* `takeAll_layers`    taking in the events of layers
* `closeAll_layers`   closing them
-/

namespace YamlSpan

open EventTree

/-- The open collection of a layer. -/
def Layer.opened (src : Source) (base : Int) :
    Layer → List (String × RawNode) → Meaning OpenCollection
  | .sequence start anchor tag items, anchors =>
    let inner := itemsMeaning src base items anchors
    ⟨⟨base + start.start, anchor, base + start.stop, .sequence inner.value⟩, inner.anchors,
      tagReports src tag .sequence (start.shift base) ++ inner.reports⟩
  | .mapping start anchor tag pairs none, anchors =>
    let inner := pairsMeaning src base pairs [] anchors
    ⟨⟨base + start.start, anchor, base + start.stop, .mapping inner.value none⟩, inner.anchors,
      tagReports src tag .mapping (start.shift base) ++ inner.reports⟩
  | .mapping start anchor tag pairs (some key), anchors =>
    let inner := pairsMeaning src base pairs [] anchors
    let k := key.meaning src base inner.anchors
    ⟨⟨base + start.start, anchor, base + start.stop,
        .mapping inner.value (some ⟨k.value.node, k.value.span.start⟩)⟩, k.anchors,
      tagReports src tag .mapping (start.shift base) ++ (inner.reports ++ k.reports)⟩

/-- The open collections of layers as they lie on the stack, innermost first. -/
def layerStack (src : Source) (base : Int) :
    List Layer → List (String × RawNode) → Meaning (List OpenCollection)
  | [], anchors => ⟨[], anchors, []⟩
  | layer :: inner, anchors =>
    let outer := layer.opened src base anchors
    let others := layerStack src base inner outer.anchors
    ⟨others.value ++ [outer.value], others.anchors, outer.reports ++ others.reports⟩

theorem layerStack_length (src : Source) (base : Int) (layers : List Layer)
    (anchors : List (String × RawNode)) :
    (layerStack src base layers anchors).value.length = layers.length := by
  induction layers generalizing anchors with
  | nil => rfl
  | cons layer inner ih => simp [layerStack, ih]

namespace Assembly

/-! ### reading layers -/

section
variable (src : Source) (documents : List RawDocument) (base : Int)

theorem takeAll_layer (layer : Layer) (d : RawDocument) (stack : List OpenCollection)
    (anchors : List (String × RawNode)) :
    (takeAll src layer.events).run ⟨documents, some d, stack, anchors, base⟩
      = let m := layer.opened src base anchors
        .ok () (behind m documents d (m.value :: stack) base) := by
  cases layer with
  | sequence start anchor tag items =>
    have hopen : (takeEvent src (.sequenceStart start anchor tag)).run
        ⟨documents, some d, stack, anchors, base⟩ = _ :=
      openCollection_run src documents d stack anchors base .sequence (.sequence [])
        (start.shift base) anchor tag
    rw [Layer.events, takeAll_cons src _ _ hopen, takeAll_itemEvents]
    simp only [Layer.opened, behind, RawDocument.reporting_reporting, List.nil_append]
    rfl
  | mapping start anchor tag pairs key =>
    have hopen : (takeEvent src (.mappingStart start anchor tag)).run
        ⟨documents, some d, stack, anchors, base⟩ = _ :=
      openCollection_run src documents d stack anchors base .mapping (.mapping [] none)
        (start.shift base) anchor tag
    have hpairs := takeAll_pairEvents src documents base pairs (d.reporting (tagReports src tag
      .mapping (start.shift base))) stack anchors (start.shift base).start (start.shift base).stop
      anchor []
    rw [Layer.events, takeAll_cons src _ _ hopen, takeAll_append_ok src hpairs]
    cases key with
    | none =>
      simp only [Layer.opened, behind, RawDocument.reporting_reporting, List.nil_append]
      rfl
    | some key =>
      rw [Option.elim_some, behind, takeAll_events]
      simp only [behind, add_key, Layer.opened, RawDocument.reporting_reporting, List.nil_append,
        List.append_assoc]
      rfl

/-- The events of layers leave their collections on the stack. -/
theorem takeAll_layers (layers : List Layer) (d : RawDocument) (stack : List OpenCollection)
    (anchors : List (String × RawNode)) :
    (takeAll src (layerEvents layers)).run ⟨documents, some d, stack, anchors, base⟩
      = let m := layerStack src base layers anchors
        .ok () (behind m documents d (m.value ++ stack) base) := by
  induction layers generalizing d stack anchors with
  | nil => simp [layerEvents, layerStack, takeAll, behind]
  | cons layer inner ih =>
    rw [layerEvents, List.flatMap_cons, takeAll_append_ok src (takeAll_layer ..)]
    rw [layerEvents] at ih
    rw [behind, ih]
    simp only [layerStack, behind, RawDocument.reporting_reporting, List.append_assoc,
      List.singleton_append]

end

/-! ### closing layers -/

variable (src : Source) (base : Int)

/-- A complete tree below a layer makes it the layer with that tree. -/
theorem add_layer (layer : Layer) (tree : EventTree) (anchors : List (String × RawNode)) :
    let outer := layer.opened src base anchors
    let m := tree.meaning src base outer.anchors
    let pushed := (layer.push tree).opened src base anchors
    ∃ reports, pushed.reports = outer.reports ++ (m.reports ++ reports)
      ∧ ∀ (documents : List RawDocument) (d : RawDocument) (stack : List OpenCollection),
        (add src m.value.node m.value.span).run
            ⟨documents, some d, outer.value :: stack, m.anchors, base⟩
          = .ok () ⟨documents, some (d.reporting reports), pushed.value :: stack, pushed.anchors,
              base⟩ := by
  cases layer with
  | sequence start anchor tag items =>
    refine ⟨[], ?_, fun documents d stack => ?_⟩
    · simp [Layer.push, Layer.opened, itemsMeaning_append, itemsMeaning]
    · simp [Layer.push, Layer.opened, itemsMeaning_append, itemsMeaning, add_item]
  | mapping start anchor tag pairs key =>
    cases key with
    | none =>
      refine ⟨[], ?_, fun documents d stack => ?_⟩
      · simp [Layer.push, Layer.opened]
      · simp [Layer.push, Layer.opened, add_key]
    | some key =>
      refine ⟨repeatReports src.text (pairsMeaning src base pairs [] anchors).value
        (key.meaning src base (pairsMeaning src base pairs [] anchors).anchors).value, ?_,
        fun documents d stack => ?_⟩
      · simp [Layer.push, Layer.opened, pairsMeaning_append, pairsMeaning]
      · simp [Layer.push, Layer.opened, pairsMeaning_append, pairsMeaning, add_value]

/-- The meaning of a value that was left out. -/
theorem leftOut_meaning (place : Int) (anchors : List (String × RawNode)) :
    (leftOut place).meaning src base anchors
      = ⟨⟨none, ⟨base + place, base + place⟩⟩, anchors, []⟩ := by
  simp [leftOut, meaning, scalarMeaning, Span.shift]

/-- Closing the collection of a layer adds the node of the layer that ends there. -/
theorem close_layer (place : Int) (layer : Layer) (anchors : List (String × RawNode)) :
    let outer := layer.opened src base anchors
    let m := (layer.close place).meaning src base anchors
    ∃ reports, m.reports = outer.reports ++ reports
      ∧ ∀ (documents : List RawDocument) (d : RawDocument) (stack : List OpenCollection),
        (close src (base + place)).run
            ⟨documents, some d, outer.value :: stack, outer.anchors, base⟩
          = (add src m.value.node m.value.span).run
              ⟨documents, some (d.reporting reports), stack, m.anchors, base⟩ := by
  cases layer with
  | sequence start anchor tag items =>
    refine ⟨anchorReports (itemsMeaning src base items anchors).anchors anchor
      (start.shift base), ?_, fun documents d stack => ?_⟩
    · simp [Layer.close, Layer.opened, meaning, finished]
    · simp only [Layer.opened]
      rw [close_run _ _ _ _ _ _ _ _ rfl]
      rfl
  | mapping start anchor tag pairs key =>
    cases key with
    | none =>
      refine ⟨anchorReports (pairsMeaning src base pairs [] anchors).anchors anchor
        (start.shift base), ?_, fun documents d stack => ?_⟩
      · simp [Layer.close, Layer.opened, meaning, finished]
      · simp only [Layer.opened]
        rw [close_run _ _ _ _ _ _ _ _ rfl]
        rfl
    | some key =>
      let inner := pairsMeaning src base pairs [] anchors
      let k := key.meaning src base inner.anchors
      refine ⟨repeatReports src.text inner.value k.value
        ++ anchorReports k.anchors anchor (start.shift base), ?_, fun documents d stack => ?_⟩
      · simp [Layer.close, Layer.opened, meaning, finished, pairsMeaning_append, pairsMeaning,
          leftOut_meaning, inner, k]
      · simp only [Layer.opened]
        rw [close_waiting, close_run _ _ _ _ _ _ _ _ rfl]
        simp [Layer.close, meaning, finished, pairsMeaning_append, pairsMeaning, leftOut_meaning,
          behind, OpenCollection.node, collectionSpan, Span.shift, inner, k]

theorem closeAll_succ (stop : Int) (count : Nat) {c c' : Assembly}
    (h : (closeAll src stop count).run c = .ok () c') :
    (closeAll src stop (count + 1)).run c = (close src stop).run c' := by
  induction count generalizing c with
  | zero =>
    have hc : c = c' := by simpa [closeAll] using h
    rw [closeAll, EStateM.run_bind, hc]
    cases (close src stop).run c' <;> rfl
  | succ count ih =>
    rw [closeAll, EStateM.run_bind] at h ⊢
    cases hclose : (close src stop).run c with
    | error e c1 => rw [hclose] at h; cases h
    | ok _ c1 =>
      rw [hclose] at h
      exact ih h

/-- Closing all collections of layers adds the node of the tree that they leave. -/
theorem closeAll_layers (place : Int) (layers : List Layer) (tree : EventTree)
    (htree : layerTree place layers = some tree) (anchors : List (String × RawNode)) :
    let outer := layerStack src base layers anchors
    let m := tree.meaning src base anchors
    ∃ reports, m.reports = outer.reports ++ reports
      ∧ ∀ (documents : List RawDocument) (d : RawDocument) (stack : List OpenCollection),
        (closeAll src (base + place) layers.length).run
            ⟨documents, some d, outer.value ++ stack, outer.anchors, base⟩
          = (add src m.value.node m.value.span).run
              ⟨documents, some (d.reporting reports), stack, m.anchors, base⟩ := by
  induction layers generalizing tree anchors with
  | nil => cases htree
  | cons layer inner ih =>
    cases hinner : layerTree place inner with
    | none =>
      obtain rfl := layerTree_eq_none hinner
      simp only [layerTree, Option.some.injEq] at htree
      subst htree
      obtain ⟨reports, hreports, hclose⟩ := close_layer src base place layer anchors
      refine ⟨reports, by simpa [layerStack] using hreports, fun documents d stack => ?_⟩
      rw [List.length_singleton, closeAll_succ src _ 0 rfl]
      exact hclose documents d stack
    | some child =>
      simp only [layerTree, hinner, Option.some.injEq] at htree
      subst htree
      obtain ⟨r1, hr1, hchild⟩ := ih child hinner (layer.opened src base anchors).anchors
      obtain ⟨r2, hr2, hadd⟩ := add_layer src base layer child anchors
      obtain ⟨r3, hr3, hclose⟩ := close_layer src base place (layer.push child) anchors
      refine ⟨r1 ++ (r2 ++ r3), ?_, fun documents d stack => ?_⟩
      · simp only [hr3, hr2, hr1, layerStack, List.append_assoc]
      · -- the layers inside become a complete tree below this one, which then ends
        have hpush := (hchild documents d ((layer.opened src base anchors).value :: stack)).trans
          (hadd documents (d.reporting r1) stack)
        simp only [layerStack, List.append_assoc, List.singleton_append, List.length_cons]
        rw [closeAll_succ src _ _ hpush, hclose]
        simp only [RawDocument.reporting_reporting, List.append_assoc]

end Assembly

end YamlSpan
