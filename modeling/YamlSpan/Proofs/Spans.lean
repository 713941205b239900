import YamlSpan.Proofs.EventTree

/-!
# The spans of raw trees

All spans of a tree can be moved at once, and a property can be asked of all of them.  Both go to
the items, keys and values below a node and to what a reference stands for.  Of a text, a tree whose
spans are moved behind some characters in front shows the same as the tree shows of the text without
these characters.

* `RawNode.shift`        a tree in a text with more characters in front
* `RawNode.AllSpans`     a property of all spans of a tree
* `RawNode.keyTexts`     the texts of all keys of a tree
* `keyTexts_shift`       they stay the same when the tree is moved with its text
-/

namespace YamlSpan

/-! ### slices of the rest of a text -/

theorem Text.bound_add (n o : Nat) (h : o ≤ n) {i : Int} (hi : 0 ≤ i) :
    Text.bound n (o + i) = o + Text.bound (n - o) i := by
  unfold Text.bound
  rw [if_neg (by omega), if_neg (by omega)]
  omega

theorem Text.slice_drop {α : Type} (text : List α) (o : Nat) (h : o ≤ text.length) {s : Span}
    (hs : s.IsNonneg) :
    Text.slice text (s.shift o).start (s.shift o).stop
      = Text.slice (text.drop o) s.start s.stop := by
  show Text.slice text (o + s.start) (o + s.stop) = _
  simp only [Text.slice, List.length_drop]
  rw [Text.bound_add _ _ h hs.1, Text.bound_add _ _ h hs.2, List.drop_drop, Nat.add_sub_add_left]

/-! ### moving a tree -/

mutual

/-- A node in a text with `offset` characters in front, with all that is below it. -/
def RawNode.shift (offset : Int) : RawNode → RawNode
  | .scalar span value plain tag => .scalar (span.shift offset) value plain tag
  | .inclusion span value => .inclusion (span.shift offset) value
  | .reference span name target => .reference (span.shift offset) name (shift? offset target)
  | .sequence span items => .sequence (span.shift offset) (shiftItems offset items)
  | .map span entries => .map (span.shift offset) (shiftEntries offset entries)
  | .entry e => .entry (e.shift offset)

def RawEntry.shift (offset : Int) : RawEntry → RawEntry
  | .mk span key value => .mk (span.shift offset) (shift? offset key) (shift? offset value)

def shift? (offset : Int) : Option RawNode → Option RawNode
  | none => none
  | some node => some (node.shift offset)

def shiftItems (offset : Int) : List (Option RawNode) → List (Option RawNode)
  | [] => []
  | item :: rest => shift? offset item :: shiftItems offset rest

def shiftEntries (offset : Int) : List RawEntry → List RawEntry
  | [] => []
  | e :: rest => e.shift offset :: shiftEntries offset rest

end

theorem shiftEntries_eq_map (offset : Int) (entries : List RawEntry) :
    shiftEntries offset entries = entries.map (RawEntry.shift offset) := by
  induction entries with
  | nil => rfl
  | cons e rest ih => rw [shiftEntries, ih, List.map_cons]

theorem RawEntry.span_shift (offset : Int) (e : RawEntry) :
    (e.shift offset).span = e.span.shift offset := by
  cases e
  rfl

theorem RawEntry.key_shift (offset : Int) (e : RawEntry) :
    (e.shift offset).key = shift? offset e.key := by
  cases e
  rfl

theorem RawNode.span_shift (offset : Int) (node : RawNode) :
    (node.shift offset).span = node.span.shift offset := by
  cases node with
  | entry e => exact e.span_shift offset
  | _ => rfl

/-! ### properties of all spans -/

mutual

/-- A property of the span of a node and of all spans below it. -/
def RawNode.AllSpans (p : Span → Prop) : RawNode → Prop
  | .scalar span _ _ _ => p span
  | .inclusion span _ => p span
  | .reference span _ target => p span ∧ AllSpans? p target
  | .sequence span items => p span ∧ AllItems p items
  | .map span entries => p span ∧ AllEntries p entries
  | .entry e => e.AllSpans p

def RawEntry.AllSpans (p : Span → Prop) : RawEntry → Prop
  | .mk span key value => p span ∧ AllSpans? p key ∧ AllSpans? p value

def AllSpans? (p : Span → Prop) : Option RawNode → Prop
  | none => True
  | some node => node.AllSpans p

def AllItems (p : Span → Prop) : List (Option RawNode) → Prop
  | [] => True
  | item :: rest => AllSpans? p item ∧ AllItems p rest

def AllEntries (p : Span → Prop) : List RawEntry → Prop
  | [] => True
  | e :: rest => e.AllSpans p ∧ AllEntries p rest

end

theorem RawEntry.AllSpans.key {p : Span → Prop} {e : RawEntry} (h : e.AllSpans p) :
    AllSpans? p e.key := by
  cases e
  exact h.2.1

theorem RawNode.AllSpans.span {p : Span → Prop} {node : RawNode} (h : node.AllSpans p) :
    p node.span := by
  cases node with
  | scalar => exact h
  | inclusion => exact h
  | reference => exact h.1
  | sequence => exact h.1
  | map => exact h.1
  | entry e =>
    cases e
    exact h.1

/-! ### the texts of keys -/

mutual

/-- The texts of the keys below a node from left to right. -/
def RawNode.keyTexts (text : Text) : RawNode → List Text
  | .scalar _ _ _ _ => []
  | .inclusion _ _ => []
  | .reference _ _ target => keyTexts? text target
  | .sequence _ items => itemKeyTexts text items
  | .map _ entries => entryKeyTexts text entries
  | .entry e => e.keyTexts text

def RawEntry.keyTexts (text : Text) : RawEntry → List Text
  | .mk _ key value => keyText text key :: (keyTexts? text key ++ keyTexts? text value)

def keyTexts? (text : Text) : Option RawNode → List Text
  | none => []
  | some node => node.keyTexts text

def itemKeyTexts (text : Text) : List (Option RawNode) → List Text
  | [] => []
  | item :: rest => keyTexts? text item ++ itemKeyTexts text rest

def entryKeyTexts (text : Text) : List RawEntry → List Text
  | [] => []
  | e :: rest => e.keyTexts text ++ entryKeyTexts text rest

end

section
variable {text : Text} {o : Nat}

theorem RawNode.keyText_shift (ho : o ≤ text.length) :
    ∀ node : RawNode, node.AllSpans Span.IsNonneg →
      (node.shift o).keyText text = node.keyText (text.drop o)
  | .scalar _ _ _ _, _ => rfl
  | .inclusion _ _, _ => rfl
  | .reference _ _ (some target), h => RawNode.keyText_shift ho target h.2
  | .reference _ _ none, h => Text.slice_drop text o ho h.1
  | .sequence _ _, h => Text.slice_drop text o ho h.1
  | .map _ _, h => Text.slice_drop text o ho h.1
  | .entry (.mk _ _ _), h => Text.slice_drop text o ho h.1

/-- A key has the text in the whole that it has in the rest. -/
theorem keyText_shift? (ho : o ≤ text.length) (node : Option RawNode)
    (h : AllSpans? Span.IsNonneg node) :
    keyText text (shift? o node) = keyText (text.drop o) node := by
  cases node with
  | none => rfl
  | some node => exact node.keyText_shift ho h

mutual

theorem RawNode.keyTexts_shift (ho : o ≤ text.length) :
    ∀ node : RawNode, node.AllSpans Span.IsNonneg →
      (node.shift o).keyTexts text = node.keyTexts (text.drop o)
  | .scalar _ _ _ _, _ => rfl
  | .inclusion _ _, _ => rfl
  | .reference _ _ target, h => keyTexts?_shift ho target h.2
  | .sequence _ items, h => itemKeyTexts_shift ho items h.2
  | .map _ entries, h => entryKeyTexts_shift ho entries h.2
  | .entry e, h => e.keyTexts_shift ho h

theorem RawEntry.keyTexts_shift (ho : o ≤ text.length) :
    ∀ e : RawEntry, e.AllSpans Span.IsNonneg →
      (e.shift o).keyTexts text = e.keyTexts (text.drop o)
  | .mk span key value, h => by
    show keyText text (shift? o key) :: (keyTexts? text (shift? o key)
      ++ keyTexts? text (shift? o value)) = _
    rw [keyText_shift? ho key h.2.1, keyTexts?_shift ho key h.2.1, keyTexts?_shift ho value h.2.2]
    rfl

theorem keyTexts?_shift (ho : o ≤ text.length) :
    ∀ node : Option RawNode, AllSpans? Span.IsNonneg node →
      keyTexts? text (shift? o node) = keyTexts? (text.drop o) node
  | none, _ => rfl
  | some node, h => node.keyTexts_shift ho h

theorem itemKeyTexts_shift (ho : o ≤ text.length) :
    ∀ items : List (Option RawNode), AllItems Span.IsNonneg items →
      itemKeyTexts text (shiftItems o items) = itemKeyTexts (text.drop o) items
  | [], _ => rfl
  | item :: rest, h => by
    rw [shiftItems, itemKeyTexts, keyTexts?_shift ho item h.1, itemKeyTexts_shift ho rest h.2]
    rfl

theorem entryKeyTexts_shift (ho : o ≤ text.length) :
    ∀ entries : List RawEntry, AllEntries Span.IsNonneg entries →
      entryKeyTexts text (shiftEntries o entries) = entryKeyTexts (text.drop o) entries
  | [], _ => rfl
  | e :: rest, h => by
    rw [shiftEntries, entryKeyTexts, e.keyTexts_shift ho h.1, entryKeyTexts_shift ho rest h.2]
    rfl

end

end

/-! ### documents -/

def RawDiagnostic.shift (offset : Int) (d : RawDiagnostic) : RawDiagnostic :=
  { d with span := d.span.shift offset }

/-- A document in a text with `offset` characters in front: its span, its tree and the places of its
reports are moved, and all else is kept. -/
def RawDocument.shift (offset : Int) (d : RawDocument) : RawDocument :=
  ⟨d.span.shift offset, shift? offset d.root, d.diagnostics.map (RawDiagnostic.shift offset)⟩

end YamlSpan
