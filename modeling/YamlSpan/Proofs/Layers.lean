import YamlSpan.Proofs.EventTree

/-!
# Trees that are read in part

When reading stops inside a tree, the collections that are open form layers around each other.  A
layer holds the trees below it that are complete, and in a map perhaps a complete key whose value
is missing.  Every part of the events of a tree from the left is the events of such layers, unless
it is all of them.

* `Layer.events`, `layerEvents`   the events read so far
* `Cut`                           the layers that a tree can be left with
* `prefix_events`                 what is read of a tree is all of it or layers of it
* `Layer.close`, `layerTree`        the tree that is left when all layers end at one place
-/

namespace YamlSpan

/-- A collection that is open: what is complete below it, and the key that waits for its value. -/
inductive Layer where
  | sequence (start : Span) (anchor tag : Option String) (items : List EventTree)
  | mapping (start : Span) (anchor tag : Option String) (pairs : List (EventTree × EventTree))
      (key : Option EventTree)

namespace Layer

/-- The events of a layer so far. -/
def events : Layer → List Event
  | .sequence start anchor tag items =>
    .sequenceStart start anchor tag :: EventTree.itemEvents items
  | .mapping start anchor tag pairs key =>
    .mappingStart start anchor tag
      :: (EventTree.pairEvents pairs ++ key.elim [] EventTree.events)

/-- A layer with one more tree that is complete. -/
def push : Layer → EventTree → Layer
  | .sequence start anchor tag items, tree => .sequence start anchor tag (items ++ [tree])
  | .mapping start anchor tag pairs none, tree => .mapping start anchor tag pairs (some tree)
  | .mapping start anchor tag pairs (some key), tree =>
    .mapping start anchor tag (pairs ++ [(key, tree)]) none

end Layer

/-- The place of a node that was left out. -/
def EventTree.leftOut (place : Int) : EventTree := .scalar ⟨place, place⟩ [] true none none

/-- A layer that ends at a place.  A key that waits gets a value that was left out there. -/
def Layer.close (place : Int) : Layer → EventTree
  | .sequence start anchor tag items => .sequence start anchor tag items ⟨place, place⟩
  | .mapping start anchor tag pairs none => .mapping start anchor tag pairs ⟨place, place⟩
  | .mapping start anchor tag pairs (some key) =>
    .mapping start anchor tag (pairs ++ [(key, EventTree.leftOut place)]) ⟨place, place⟩

/-- The events of layers, outermost first. -/
def layerEvents (layers : List Layer) : List Event := layers.flatMap Layer.events

/-- The tree of layers that all end at a place, from the innermost to the outermost. -/
def layerTree (place : Int) : List Layer → Option EventTree
  | [] => none
  | layer :: inner =>
    match layerTree place inner with
    | none => some (layer.close place)
    | some tree => some ((layer.push tree).close place)

theorem layerTree_eq_none {place : Int} {layers : List Layer} (h : layerTree place layers = none) :
    layers = [] := by
  cases layers with
  | nil => rfl
  | cons layer inner =>
    rw [layerTree] at h
    split at h <;> cases h

/-! ### the events that close layers -/

/-- An event that ends a collection at a place, or stands for a node that was left out there. -/
def ClosesAt (place : Int) (event : Event) : Prop :=
  event = .sequenceEnd ⟨place, place⟩ ∨ event = .mappingEnd ⟨place, place⟩
    ∨ event = .scalar ⟨place, place⟩ [] true none none

theorem Layer.events_push (layer : Layer) (tree : EventTree) :
    (layer.push tree).events = layer.events ++ tree.events := by
  cases layer with
  | sequence start anchor tag items =>
    simp [push, events, EventTree.itemEvents_append, EventTree.itemEvents]
  | mapping start anchor tag pairs key =>
    cases key with
    | none => simp [push, events]
    | some key => simp [push, events, EventTree.pairEvents_append, EventTree.pairEvents]

theorem Layer.events_close (place : Int) (layer : Layer) :
    ∃ closing, (layer.close place).events = layer.events ++ closing
      ∧ ∀ event ∈ closing, ClosesAt place event := by
  cases layer with
  | sequence start anchor tag items =>
    refine ⟨[.sequenceEnd ⟨place, place⟩], ?_, ?_⟩
    · simp [close, events, EventTree.events]
    · simp [ClosesAt]
  | mapping start anchor tag pairs key =>
    cases key with
    | none =>
      refine ⟨[.mappingEnd ⟨place, place⟩], ?_, ?_⟩
      · simp [close, events, EventTree.events]
      · simp [ClosesAt]
    | some key =>
      refine ⟨[.scalar ⟨place, place⟩ [] true none none, .mappingEnd ⟨place, place⟩], ?_, ?_⟩
      · simp [close, events, EventTree.events, EventTree.pairEvents_append, EventTree.pairEvents,
          EventTree.leftOut]
      · simp [ClosesAt]

/-- Closing layers adds nothing to their events but ends and places of missing values. -/
theorem layerTree_events (place : Int) (layers : List Layer) :
    ∃ closing, (layerTree place layers).elim [] EventTree.events = layerEvents layers ++ closing
      ∧ ∀ event ∈ closing, ClosesAt place event := by
  induction layers with
  | nil => exact ⟨[], rfl, by simp⟩
  | cons layer inner ih =>
    obtain ⟨closing, hevents, hcloses⟩ := ih
    cases htree : layerTree place inner with
    | none =>
      obtain rfl := layerTree_eq_none htree
      obtain ⟨more, hmore, hends⟩ := layer.events_close place
      refine ⟨more, ?_, hends⟩
      simp [layerTree, layerEvents, hmore]
    | some tree =>
      obtain ⟨more, hmore, hends⟩ := (layer.push tree).events_close place
      refine ⟨closing ++ more, ?_, ?_⟩
      · rw [htree, Option.elim_some] at hevents
        simp only [layerTree, htree, Option.elim_some, hmore, Layer.events_push, hevents]
        simp [layerEvents]
      · intro event hevent
        rcases List.mem_append.mp hevent with h | h
        · exact hcloses event h
        · exact hends event h

/-! ### the parts of a tree from the left -/

/-- The layers are open when a part of the events of the tree has been read. -/
inductive Cut : List Layer → EventTree → Prop where
  | unread (tree : EventTree) : Cut [] tree
  | items {start stop : Span} {anchor tag : Option String} {items : List EventTree} :
    Cut [.sequence start anchor tag items] (.sequence start anchor tag items stop)
  | item {start stop : Span} {anchor tag : Option String} {done rest : List EventTree}
      {item : EventTree} {inner : List Layer} (h : Cut inner item) :
    Cut (.sequence start anchor tag done :: inner)
      (.sequence start anchor tag (done ++ item :: rest) stop)
  | pairs {start stop : Span} {anchor tag : Option String} {pairs : List (EventTree × EventTree)} :
    Cut [.mapping start anchor tag pairs none] (.mapping start anchor tag pairs stop)
  | key {start stop : Span} {anchor tag : Option String} {done rest : List (EventTree × EventTree)}
      {key value : EventTree} {inner : List Layer} (h : Cut inner key) :
    Cut (.mapping start anchor tag done none :: inner)
      (.mapping start anchor tag (done ++ (key, value) :: rest) stop)
  | value {start stop : Span} {anchor tag : Option String}
      {done rest : List (EventTree × EventTree)} {key value : EventTree} {inner : List Layer}
      (h : Cut inner value) :
    Cut (.mapping start anchor tag done (some key) :: inner)
      (.mapping start anchor tag (done ++ (key, value) :: rest) stop)

/-- A part of two lists from the left ends in the first or holds all of it. -/
theorem prefix_append_split {α : Type} {read a b : List α} (h : read <+: a ++ b) :
    read <+: a ∨ ∃ rest, rest <+: b ∧ read = a ++ rest := by
  rcases List.prefix_or_prefix_of_prefix h (List.prefix_append a b) with h' | ⟨rest, rfl⟩
  · exact .inl h'
  · exact .inr ⟨rest, (List.prefix_append_right_inj a).mp h, rfl⟩

namespace EventTree

mutual

/-- What is read of a tree is all of it or layers of it. -/
theorem prefix_events : ∀ (tree : EventTree) {read : List Event}, read <+: tree.events →
    read = tree.events ∨ ∃ layers, read = layerEvents layers ∧ Cut layers tree
  | .scalar span value plain anchor tag, read, h => by
    rcases List.prefix_cons_iff.mp h with rfl | ⟨rest, rfl, hrest⟩
    · exact .inr ⟨[], rfl, .unread _⟩
    · rw [List.prefix_nil.mp hrest]
      exact .inl rfl
  | .reference span name, read, h => by
    rcases List.prefix_cons_iff.mp h with rfl | ⟨rest, rfl, hrest⟩
    · exact .inr ⟨[], rfl, .unread _⟩
    · rw [List.prefix_nil.mp hrest]
      exact .inl rfl
  | .sequence start anchor tag items stop, read, h => by
    rcases List.prefix_cons_iff.mp h with rfl | ⟨rest, rfl, hrest⟩
    · exact .inr ⟨[], rfl, .unread _⟩
    · rcases prefix_append_split hrest with hitems | ⟨last, hlast, rfl⟩
      · rcases prefix_itemEvents items hitems with rfl | ⟨done, item, more, inner, rfl, rfl, hcut⟩
        · exact .inr ⟨[.sequence start anchor tag items], by simp [layerEvents, Layer.events],
            .items⟩
        · exact .inr ⟨.sequence start anchor tag done :: inner,
            by simp [layerEvents, Layer.events], .item hcut⟩
      · rcases List.prefix_cons_iff.mp hlast with rfl | ⟨none, rfl, hnone⟩
        · exact .inr ⟨[.sequence start anchor tag items], by simp [layerEvents, Layer.events],
            .items⟩
        · rw [List.prefix_nil.mp hnone]
          exact .inl rfl
  | .mapping start anchor tag pairs stop, read, h => by
    rcases List.prefix_cons_iff.mp h with rfl | ⟨rest, rfl, hrest⟩
    · exact .inr ⟨[], rfl, .unread _⟩
    · rcases prefix_append_split hrest with hpairs | ⟨last, hlast, rfl⟩
      · rcases prefix_pairEvents pairs hpairs with rfl
          | ⟨done, key, value, more, inner, rfl, ⟨rfl, hcut⟩ | ⟨rfl, hcut⟩⟩
        · exact .inr ⟨[.mapping start anchor tag pairs none],
            by simp [layerEvents, Layer.events], .pairs⟩
        · exact .inr ⟨.mapping start anchor tag done none :: inner,
            by simp [layerEvents, Layer.events], .key hcut⟩
        · exact .inr ⟨.mapping start anchor tag done (some key) :: inner,
            by simp [layerEvents, Layer.events], .value hcut⟩
      · rcases List.prefix_cons_iff.mp hlast with rfl | ⟨none, rfl, hnone⟩
        · exact .inr ⟨[.mapping start anchor tag pairs none],
            by simp [layerEvents, Layer.events], .pairs⟩
        · rw [List.prefix_nil.mp hnone]
          exact .inl rfl

/-- What is read of items is all of them, or some and a part of the next. -/
theorem prefix_itemEvents : ∀ (items : List EventTree) {read : List Event},
    read <+: itemEvents items → read = itemEvents items ∨
      ∃ done item more inner, items = done ++ item :: more
        ∧ read = itemEvents done ++ layerEvents inner ∧ Cut inner item
  | [], read, h => .inl (List.prefix_nil.mp h)
  | item :: rest, read, h => by
    rcases prefix_append_split h with hitem | ⟨part, hpart, rfl⟩
    · rcases prefix_events item hitem with rfl | ⟨layers, rfl, hcut⟩
      · cases rest with
        | nil => exact .inl (by simp [itemEvents])
        | cons next more =>
          exact .inr ⟨[item], next, more, [], rfl, by simp [itemEvents, layerEvents], .unread _⟩
      · exact .inr ⟨[], item, rest, layers, rfl, by simp [itemEvents], hcut⟩
    · rcases prefix_itemEvents rest hpart with rfl | ⟨done, next, more, inner, rfl, rfl, hcut⟩
      · exact .inl rfl
      · exact .inr ⟨item :: done, next, more, inner, rfl, by simp [itemEvents], hcut⟩

/-- What is read of keys and values is all of them, or some and a part of the next key, or a part
of the value behind it. -/
theorem prefix_pairEvents : ∀ (pairs : List (EventTree × EventTree)) {read : List Event},
    read <+: pairEvents pairs → read = pairEvents pairs ∨
      ∃ done key value more inner, pairs = done ++ (key, value) :: more
        ∧ (read = pairEvents done ++ layerEvents inner ∧ Cut inner key
          ∨ read = pairEvents done ++ (key.events ++ layerEvents inner) ∧ Cut inner value)
  | [], read, h => .inl (List.prefix_nil.mp h)
  | (key, value) :: rest, read, h => by
    rcases prefix_append_split h with hkey | ⟨part, hpart, rfl⟩
    · rcases prefix_events key hkey with rfl | ⟨layers, rfl, hcut⟩
      · exact .inr ⟨[], key, value, rest, [], rfl,
          .inr ⟨by simp [pairEvents, layerEvents], .unread _⟩⟩
      · exact .inr ⟨[], key, value, rest, layers, rfl, .inl ⟨by simp [pairEvents], hcut⟩⟩
    · rcases prefix_append_split hpart with hvalue | ⟨others, hothers, rfl⟩
      · rcases prefix_events value hvalue with rfl | ⟨layers, rfl, hcut⟩
        · cases rest with
          | nil => exact .inl (by simp [pairEvents])
          | cons next more =>
            exact .inr ⟨[(key, value)], next.1, next.2, more, [], rfl,
              .inl ⟨by simp [pairEvents, layerEvents], .unread _⟩⟩
        · exact .inr ⟨[], key, value, rest, layers, rfl, .inr ⟨by simp [pairEvents], hcut⟩⟩
      · rcases prefix_pairEvents rest hothers with rfl
          | ⟨done, k, v, more, inner, rfl, ⟨rfl, hcut⟩ | ⟨rfl, hcut⟩⟩
        · exact .inl rfl
        · exact .inr ⟨(key, value) :: done, k, v, more, inner, rfl,
            .inl ⟨by simp [pairEvents], hcut⟩⟩
        · exact .inr ⟨(key, value) :: done, k, v, more, inner, rfl,
            .inr ⟨by simp [pairEvents], hcut⟩⟩

end

end EventTree

end YamlSpan
