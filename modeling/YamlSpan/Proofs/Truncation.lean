import YamlSpan.Proofs.Closing

/-!
# What is left of a node that is cut off

A node that is cut off at an offset is the whole node as far as it goes: what was complete is as in
the whole, a collection that was open starts where it starts in the whole and ends at the offset,
and a key without a value has an entry without a value.

* `CutAt`            the relation between what is left of a node and the whole node
* `cutAt_of_cut`     the tree that layers leave is cut off from any tree they are layers of
-/

namespace YamlSpan

open EventTree

/-- What is left of a node when everything that is open ends at the offset. -/
inductive CutAt (offset : Int) : Option RawNode → Option RawNode → Prop where
  | whole (node : Option RawNode) : CutAt offset node node
  | sequence {start stop : Int} (done rest : List (Option RawNode)) :
    CutAt offset (some (.sequence ⟨start, max offset start⟩ done))
      (some (.sequence ⟨start, stop⟩ (done ++ rest)))
  | item {start stop : Int} {part node : Option RawNode} (done rest : List (Option RawNode))
      (h : CutAt offset part node) :
    CutAt offset (some (.sequence ⟨start, max offset start⟩ (done ++ [part])))
      (some (.sequence ⟨start, stop⟩ (done ++ node :: rest)))
  | map {start stop : Int} (done rest : List RawEntry) :
    CutAt offset (some (.map ⟨start, max offset start⟩ done))
      (some (.map ⟨start, stop⟩ (done ++ rest)))
  | key {start stop keyStart entryStop : Int} {part key value : Option RawNode}
      (done rest : List RawEntry) (h : CutAt offset part key) :
    CutAt offset
      (some (.map ⟨start, max offset start⟩ (done
        ++ [.mk ⟨keyStart, max offset (part.elim keyStart fun node => node.span.stop)⟩ part none])))
      (some (.map ⟨start, stop⟩ (done ++ .mk ⟨keyStart, entryStop⟩ key value :: rest)))
  | value {start stop keyStart partStop entryStop : Int} {key part value : Option RawNode}
      (done rest : List RawEntry) (h : CutAt offset part value) :
    CutAt offset
      (some (.map ⟨start, max offset start⟩ (done ++ [.mk ⟨keyStart, partStop⟩ key part])))
      (some (.map ⟨start, stop⟩ (done ++ .mk ⟨keyStart, entryStop⟩ key value :: rest)))

theorem Placed.keyStop_eq (key : Placed) :
    key.keyStop = key.node.elim key.span.start fun node => node.span.stop := by
  unfold Placed.keyStop
  cases key.node <;> rfl

section
variable (src : Source) (base place : Int)

/-- The tree that layers leave is cut off from any tree they are layers of, and starts with it. -/
theorem cutAt_of_cut {layers : List Layer} {tree : EventTree} (hcut : Cut layers tree) :
    ∀ {part : EventTree}, layerTree place layers = some part →
      ∀ anchors : List (String × RawNode),
        CutAt (base + place) (part.meaning src base anchors).value.node
          (tree.meaning src base anchors).value.node
        ∧ (part.meaning src base anchors).value.span.start
          = (tree.meaning src base anchors).value.span.start := by
  induction hcut with
  | unread tree =>
    intro part hpart
    cases hpart
  | @items start stop anchor tag items =>
    intro part hpart anchors
    obtain rfl : _ = part := Option.some.inj hpart
    refine ⟨?_, rfl⟩
    have h := @CutAt.sequence (base + place) (base + start.start)
      (max (base + stop.stop) (base + start.start)) (itemsMeaning src base items anchors).value []
    rw [List.append_nil] at h
    exact h
  | @item start stop anchor tag done rest item inner hinner ih =>
    intro part hpart anchors
    cases hchild : layerTree place inner with
    | none =>
      simp only [layerTree, hchild, Option.some.injEq] at hpart
      subst hpart
      refine ⟨?_, rfl⟩
      simp only [Layer.close, meaning, finished, itemsMeaning_append]
      exact .sequence _ _
    | some child =>
      simp only [layerTree, hchild, Option.some.injEq] at hpart
      subst hpart
      refine ⟨?_, rfl⟩
      simp only [Layer.push, Layer.close, meaning, finished, itemsMeaning_append, itemsMeaning]
      exact .item _ _ (ih hchild _).1
  | @pairs start stop anchor tag pairs =>
    intro part hpart anchors
    obtain rfl : _ = part := Option.some.inj hpart
    refine ⟨?_, rfl⟩
    have h := @CutAt.map (base + place) (base + start.start)
      (max (base + stop.stop) (base + start.start)) (pairsMeaning src base pairs [] anchors).value
      []
    rw [List.append_nil] at h
    exact h
  | @key start stop anchor tag done rest key value inner hinner ih =>
    intro part hpart anchors
    cases hchild : layerTree place inner with
    | none =>
      simp only [layerTree, hchild, Option.some.injEq] at hpart
      subst hpart
      refine ⟨?_, rfl⟩
      simp only [Layer.close, meaning, finished, pairsMeaning_append]
      exact .map _ _
    | some child =>
      simp only [layerTree, hchild, Option.some.injEq] at hpart
      subst hpart
      refine ⟨?_, rfl⟩
      obtain ⟨hkey, hstart⟩ := ih hchild (pairsMeaning src base done [] anchors).anchors
      simp only [Layer.push, Layer.close, meaning, finished, pairsMeaning_append, pairsMeaning,
        Assembly.leftOut_meaning, pairEntry, Placed.keyStop_eq, hstart]
      exact .key _ _ hkey
  | @value start stop anchor tag done rest key value inner hinner ih =>
    intro part hpart anchors
    cases hchild : layerTree place inner with
    | none =>
      simp only [layerTree, hchild, Option.some.injEq] at hpart
      subst hpart
      refine ⟨?_, rfl⟩
      simp only [Layer.close, meaning, finished, pairsMeaning_append, pairsMeaning,
        Assembly.leftOut_meaning, pairEntry, Placed.keyStop_eq]
      exact .key _ _ (.whole _)
    | some child =>
      simp only [layerTree, hchild, Option.some.injEq] at hpart
      subst hpart
      refine ⟨?_, rfl⟩
      simp only [Layer.push, Layer.close, meaning, finished, pairsMeaning_append, pairsMeaning,
        pairEntry]
      exact .value _ _ (ih hchild _).1

end

end YamlSpan
