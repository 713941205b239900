import YamlSpan.Node.OfRaw
import YamlSpan.Node.Value

/-!
# References and what they stand for

A reference may be replaced by what it stands for, in every place where it occurs and again inside
of what it stands for.  Spans change by that, but no value does: a reference has the value of its
target, and as a key it has the text of its target.

* `RawNode.expand`              a tree with its references replaced
* `RawNode.IsExpanded`          no reference that stands for something is left
* `RawNode.keyText_expand`      key texts stay
* `RawNode.value_toNode_expand` values stay
* `RawNode.value_map`           the keys of the value of a map are the key texts of its entries
* `references_transparent`      references change neither values nor keys

A reference without a target stays.  It is null as a value and its own source text as a key.
-/

namespace YamlSpan

mutual

/-- A node with what its references stand for in their place, at any depth. -/
def RawNode.expand : RawNode → RawNode
  | .scalar span value plain tag => .scalar span value plain tag
  | .inclusion span value => .inclusion span value
  | .reference _ _ (some target) => target.expand
  | .reference span name none => .reference span name none
  | .sequence span items => .sequence span (expandItems items)
  | .map span entries => .map span (expandEntries entries)
  | .entry e => .entry e.expand

def RawEntry.expand : RawEntry → RawEntry
  | .mk span key value => .mk span (expand? key) (expand? value)

def expand? : Option RawNode → Option RawNode
  | none => none
  | some node => some node.expand

def expandItems : List (Option RawNode) → List (Option RawNode)
  | [] => []
  | item :: rest => expand? item :: expandItems rest

def expandEntries : List RawEntry → List RawEntry
  | [] => []
  | e :: rest => e.expand :: expandEntries rest

end

mutual

/-- No reference below a node, or the node itself, stands for something. -/
def RawNode.IsExpanded : RawNode → Prop
  | .scalar .. => True
  | .inclusion .. => True
  | .reference _ _ target => target = none
  | .sequence _ items => AreExpanded items
  | .map _ entries => EntriesExpanded entries
  | .entry e => e.IsExpanded

def RawEntry.IsExpanded : RawEntry → Prop
  | .mk _ key value => IsExpanded? key ∧ IsExpanded? value

def IsExpanded? : Option RawNode → Prop
  | none => True
  | some node => node.IsExpanded

def AreExpanded : List (Option RawNode) → Prop
  | [] => True
  | item :: rest => IsExpanded? item ∧ AreExpanded rest

def EntriesExpanded : List RawEntry → Prop
  | [] => True
  | e :: rest => e.IsExpanded ∧ EntriesExpanded rest

end

/-! ### nothing is left to replace -/

mutual

theorem RawNode.isExpanded_expand : ∀ node : RawNode, node.expand.IsExpanded
  | .scalar .. => trivial
  | .inclusion .. => trivial
  | .reference _ _ (some target) => target.isExpanded_expand
  | .reference _ _ none => rfl
  | .sequence _ items => areExpanded_expandItems items
  | .map _ entries => entriesExpanded_expandEntries entries
  | .entry e => e.isExpanded_expand

theorem RawEntry.isExpanded_expand : ∀ e : RawEntry, e.expand.IsExpanded
  | .mk _ key value => ⟨isExpanded?_expand? key, isExpanded?_expand? value⟩

theorem isExpanded?_expand? : ∀ node : Option RawNode, IsExpanded? (expand? node)
  | none => trivial
  | some node => node.isExpanded_expand

theorem areExpanded_expandItems : ∀ items : List (Option RawNode), AreExpanded (expandItems items)
  | [] => trivial
  | item :: rest => ⟨isExpanded?_expand? item, areExpanded_expandItems rest⟩

theorem entriesExpanded_expandEntries :
    ∀ entries : List RawEntry, EntriesExpanded (expandEntries entries)
  | [] => trivial
  | e :: rest => ⟨e.isExpanded_expand, entriesExpanded_expandEntries rest⟩

end

/-! ### keys -/

section
variable (text : Text)

/-- A collection keeps its span, so that its source text stays; a reference has the key text of its
target before and after. -/
theorem RawNode.keyText_expand : ∀ node : RawNode, node.expand.keyText text = node.keyText text
  | .scalar .. => rfl
  | .inclusion .. => rfl
  | .reference _ _ (some target) => target.keyText_expand
  | .reference _ _ none => rfl
  | .sequence .. => rfl
  | .map .. => rfl
  | .entry (.mk ..) => rfl

theorem keyText_expand? (node : Option RawNode) : keyText text (expand? node) = keyText text node := by
  cases node with
  | none => rfl
  | some node => exact node.keyText_expand text

theorem RawEntry.key_expand (e : RawEntry) : e.expand.key = expand? e.key := by
  cases e
  rfl

/-- Replacing references changes no key that is built. -/
theorem RawEntry.key_toProperty_expand (e : RawEntry) :
    (e.expand.toProperty text).key.text = (e.toProperty text).key.text := by
  rw [toProperty_key, toProperty_key, e.key_expand, keyText_expand? text]

/-! ### values -/

theorem isEmpty_expandItems (items : List (Option RawNode)) :
    (expandItems items).isEmpty = items.isEmpty := by
  cases items <;> rfl

mutual

/-- Replacing references changes no value. -/
theorem RawNode.value_toNode_expand :
    ∀ node : RawNode, (node.expand.toNode text).value = (node.toNode text).value
  | .scalar .. => rfl
  | .inclusion .. => rfl
  | .reference _ _ (some target) => target.value_toNode_expand
  | .reference _ _ none => rfl
  | .sequence span items => congrArg Json.array (itemValues_expand span.extent items)
  | .map _ entries => by
    show Json.object (Assoc.ofList (propertyValues (entriesToProperties text _))) = _
    rw [propertyValues_expand entries]
    rfl
  | .entry e => e.plainValue_expand

theorem RawEntry.plainValue_expand :
    ∀ e : RawEntry, (e.expand.toProperty text).plainValue = (e.toProperty text).plainValue
  | .mk _ _ none => rfl
  | .mk _ _ (some value) => value.value_toNode_expand

/-- What was left out in the last place stays the last. -/
theorem itemValues_expand (extent : Extent) : ∀ items : List (Option RawNode),
    itemValues (itemsToNodes text extent (expandItems items))
      = itemValues (itemsToNodes text extent items)
  | [] => rfl
  | some item :: rest => by
    show Node.value (item.expand.toNode text)
      :: itemValues (itemsToNodes text extent (expandItems rest)) = _
    rw [item.value_toNode_expand, itemValues_expand extent rest]
    rfl
  | none :: rest => by
    have hrest := itemValues_expand extent rest
    show itemValues (if (expandItems rest).isEmpty then _ else _) = _
    rw [isEmpty_expandItems, itemsToNodes]
    split
    · rfl
    · exact congrArg (Json.null :: ·) hrest

theorem propertyValues_expand : ∀ entries : List RawEntry,
    propertyValues (entriesToProperties text (expandEntries entries))
      = propertyValues (entriesToProperties text entries)
  | [] => rfl
  | e :: rest => by
    show ((e.expand.toProperty text).key.text, (e.expand.toProperty text).plainValue)
      :: propertyValues (entriesToProperties text (expandEntries rest)) = _
    rw [e.key_toProperty_expand, e.plainValue_expand, propertyValues_expand rest]
    rfl

end

/-! ### the values of collections -/

/-- The value of a node that may be left out. -/
def valueOf (text : Text) (node : Option RawNode) : Json :=
  node.elim .null fun node => (node.toNode text).value

/-- All items but one that was left out in the last place. -/
def keptItems (items : List (Option RawNode)) : List (Option RawNode) :=
  if items.getLast?.any Option.isNone then items.dropLast else items

theorem keptItems_cons (item next : Option RawNode) (rest : List (Option RawNode)) :
    keptItems (item :: next :: rest) = item :: keptItems (next :: rest) := by
  rw [keptItems, keptItems, List.getLast?_cons_cons, List.dropLast_cons_cons]
  split <;> rfl

theorem itemValues_items (extent : Extent) (items : List (Option RawNode)) :
    itemValues (itemsToNodes text extent items) = (keptItems items).map (valueOf text) := by
  induction items with
  | nil => rfl
  | cons item rest ih =>
    cases rest with
    | nil => cases item <;> rfl
    | cons next rest =>
      rw [keptItems_cons, List.map_cons, ← ih]
      cases item <;> rfl

theorem propertyValues_entries (entries : List RawEntry) :
    propertyValues (entriesToProperties text entries)
      = entries.map fun e => (keyText text e.key, (e.toProperty text).plainValue) := by
  induction entries with
  | nil => rfl
  | cons e rest ih =>
    rw [entriesToProperties, propertyValues, ih, RawEntry.toProperty_key, List.map_cons]

theorem RawEntry.plainValue_eq (e : RawEntry) :
    (e.toProperty text).plainValue = valueOf text e.value := by
  obtain ⟨span, key, value⟩ := e
  cases value <;> rfl

theorem RawNode.value_sequence (span : Span) (items : List (Option RawNode)) :
    ((RawNode.sequence span items).toNode text).value
      = .array ((keptItems items).map (valueOf text)) :=
  congrArg Json.array (itemValues_items text span.extent items)

/-- The value of a map has the key texts of its entries as keys. -/
theorem RawNode.value_map (span : Span) (entries : List RawEntry) :
    ((RawNode.map span entries).toNode text).value
      = .object (Assoc.ofList (entries.map fun e =>
        (YamlSpan.keyText text e.key, valueOf text e.value))) := by
  show Json.object (Assoc.ofList (propertyValues (entriesToProperties text entries))) = _
  rw [propertyValues_entries]
  simp only [RawEntry.plainValue_eq]

/-- **References are transparent.**  The value of a tree is that of the tree in which every
reference that stands for something is replaced by what it stands for, and so are the keys that are
built.  A reference has the value of its target, and as a key its key text, which is a piece of the
source if the target is a collection.  One without a target is null as a value and its own source
text as a key.  The values of collections are made of the values of what they hold, those of maps
under the keys that are built. -/
theorem references_transparent (node : RawNode) :
    node.expand.IsExpanded
      ∧ (node.expand.toNode text).value = (node.toNode text).value
      ∧ (∀ (span : Span) (name : String) (target : RawNode),
        (RawNode.reference span name (some target)).expand = target.expand
          ∧ ((RawNode.reference span name (some target)).toNode text).value
            = (target.toNode text).value
          ∧ (RawNode.reference span name (some target)).keyText text = target.keyText text
          ∧ target.expand.keyText text = target.keyText text
          ∧ ∀ (place : Span) (value : Option RawNode),
            let e := RawEntry.mk place (some (.reference span name (some target))) value
            (e.toProperty text).key.text = target.keyText text)
      ∧ (∀ (span : Span) (name : String),
        ((RawNode.reference span name none).toNode text).value = .null
          ∧ (RawNode.reference span name none).keyText text = Text.slice text span.start span.stop
          ∧ ∀ (place : Span) (value : Option RawNode),
            let e := RawEntry.mk place (some (.reference span name none)) value
            (e.toProperty text).key.text = Text.slice text span.start span.stop)
      ∧ (∀ (span : Span) (items : List (Option RawNode)),
        (RawNode.sequence span items).keyText text = Text.slice text span.start span.stop
          ∧ ((RawNode.sequence span items).toNode text).value
            = .array ((keptItems items).map (valueOf text)))
      ∧ (∀ (span : Span) (entries : List RawEntry),
        (RawNode.map span entries).keyText text = Text.slice text span.start span.stop
          ∧ ((RawNode.map span entries).toNode text).value
            = .object (Assoc.ofList (entries.map fun e =>
              (keyText text e.key, valueOf text e.value))))
      ∧ ∀ e : RawEntry, (e.toProperty text).key.text = keyText text e.key
        ∧ (e.expand.toProperty text).key.text = (e.toProperty text).key.text
        ∧ ((RawNode.entry e).toNode text).value = valueOf text e.value := by
  refine ⟨node.isExpanded_expand, node.value_toNode_expand text, ?_, ?_, ?_, ?_, ?_⟩
  · intro span name target
    refine ⟨rfl, rfl, rfl, target.keyText_expand text, ?_⟩
    intro place value
    exact RawEntry.toProperty_key text _
  · intro span name
    refine ⟨rfl, rfl, ?_⟩
    intro place value
    exact RawEntry.toProperty_key text _
  · intro span items
    exact ⟨rfl, RawNode.value_sequence text span items⟩
  · intro span entries
    exact ⟨rfl, RawNode.value_map text span entries⟩
  · intro e
    exact ⟨e.toProperty_key text, e.key_toProperty_expand text, e.plainValue_eq text⟩

end

end YamlSpan
