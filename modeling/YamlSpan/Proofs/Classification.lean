import YamlSpan.Scalar

/-!
# How scalars are classified

A scalar is read as the type that its tag names, as a truth value if it is a plain switch word, or
as the type of its spelling.  What is no literal of that type is a string.  The value always has the
type that is given with it, and of the tag only the type that it names matters.

* `Tag.IsTyped`               a tag that names a type of scalars
* `Scalar.type_ofText?`       a literal of a type has that type
* `Scalar.classify_type`      the type of a scalar
* `classification_sound`      value and type agree, and tags matter by the type they name only
-/

namespace YamlSpan

/-! ### tags -/

namespace Tag

/-- The expanded names of the tags that decide the type of a scalar. -/
def typedNames : List Text := ["null", "bool", "int", "float", "str"].map coreName

/-- Is the tag, short or expanded, one of those that decide the type of a scalar? -/
def IsTyped : Option String → Prop
  | none => False
  | some tag => expand tag ∈ typedNames

instance : (tag : Option String) → Decidable (IsTyped tag)
  | none => inferInstanceAs (Decidable False)
  | some tag => inferInstanceAs (Decidable (expand tag ∈ typedNames))

end Tag

theorem ScalarType.ofTag?_eq_none_iff (tag : Option String) :
    ScalarType.ofTag? tag = none ↔ ¬ Tag.IsTyped tag := by
  cases tag with
  | none => simp [ofTag?, Tag.IsTyped]
  | some tag => simp [ofTag?, Tag.IsTyped, Tag.typedNames, List.lookup_eq_none_iff]

theorem ScalarType.ofTag?_congr {tag tag' : Option String}
    (h : tag.map (fun t => Tag.expand t) = tag'.map (fun t => Tag.expand t)) :
    ScalarType.ofTag? tag = ScalarType.ofTag? tag' := by
  cases tag <;> cases tag' <;> simp_all [ofTag?]

namespace Scalar

/-! ### literals -/

theorem literal?_ofString {α : Type} (read : String → Except Literal.Error α) (s : String) :
    literal? read (Text.ofString s) = (read s).toOption := by
  rw [literal?, Text.toString?_ofString, Option.bind_some]

/-- The type of a value says what the value is. -/
theorem type_iff (s : Scalar) :
    (s.type = .null ↔ s = .null) ∧ (s.type = .bool ↔ ∃ b, s = .bool b)
    ∧ (s.type = .int ↔ ∃ n, s = .number (.int n)) ∧ (s.type = .float ↔ ∃ x, s = .number (.float x))
    ∧ (s.type = .string ↔ ∃ text, s = .string text) := by
  cases s with
  | null => simp [type]
  | bool b => simp [type]
  | string text => simp [type]
  | number n => cases n <;> simp [type]

/-- A text that can be read as a type has that type. -/
theorem type_ofText? {type : ScalarType} {text : Text} {s : Scalar}
    (h : ofText? type text = some s) : s.type = type := by
  cases type with
  | null => cases h; rfl
  | string => cases h; rfl
  | bool => obtain ⟨b, -, rfl⟩ := Option.map_eq_some_iff.mp h; rfl
  | int => obtain ⟨n, -, rfl⟩ := Option.map_eq_some_iff.mp h; rfl
  | float => obtain ⟨x, -, rfl⟩ := Option.map_eq_some_iff.mp h; rfl

/-- A string is the text itself. -/
theorem eq_of_ofText?_string {type : ScalarType} {text s : Text}
    (h : ofText? type text = some (.string s)) : s = text := by
  cases type_ofText? h
  cases h
  rfl

/-- Each switch word is a truth value. -/
theorem ofText?_switchWord {text : Text} (h : text ∈ switchWords.map Text.ofString) :
    ∃ b, ofText? .bool text = some (.bool b) := by
  obtain ⟨word, hword, rfl⟩ := List.mem_map.mp h
  have hread : ∀ word ∈ switchWords, (Literal.bool word).toOption ≠ none := by decide +kernel
  obtain ⟨b, hb⟩ := Option.ne_none_iff_exists'.mp (hread word hword)
  exact ⟨b, by rw [ofText?, literal?_ofString, hb, Option.map_some]⟩

/-! ### the type of a scalar -/

/-- A plain switch word whose type no tag decides. -/
def IsSwitch (text : Text) (plain : Bool) (tag : Option String) : Prop :=
  plain = true ∧ ¬ Tag.IsTyped tag ∧ text ∈ switchWords.map Text.ofString

instance (text : Text) (plain : Bool) (tag : Option String) : Decidable (IsSwitch text plain tag) :=
  inferInstanceAs (Decidable (_ ∧ _ ∧ _))

theorem literalType_eq (text : Text) (plain : Bool) (tag : Option String) :
    literalType text plain tag
      = if IsSwitch text plain tag then .bool else .of text plain tag := by
  rw [literalType]
  refine ite_congr (propext ?_) (fun _ => rfl) fun _ => rfl
  rw [ScalarType.ofTag?_eq_none_iff]
  rfl

theorem classify_string {text s : Text} {plain : Bool} {tag : Option String}
    (h : classify text plain tag = .string s) : s = text := by
  rw [classify] at h
  cases hread : ofText? (literalType text plain tag) text with
  | none =>
    rw [hread] at h
    cases h
    rfl
  | some value =>
    rw [hread] at h
    cases h
    exact eq_of_ofText?_string hread

/-- The type of a scalar: that of its tag or spelling, unless it is a switch word or no literal. -/
theorem classify_type (text : Text) (plain : Bool) (tag : Option String) :
    (classify text plain tag).type
      = if IsSwitch text plain tag then .bool
        else if ofText? (.of text plain tag) text = none then .string
        else .of text plain tag := by
  rw [classify, literalType_eq]
  split
  next hswitch =>
    obtain ⟨b, hb⟩ := ofText?_switchWord hswitch.2.2
    rw [hb]
    rfl
  next =>
    cases hread : ofText? (.of text plain tag) text with
    | none => rfl
    | some value => exact type_ofText? hread

/-- The tag matters only by the type that it names. -/
theorem classify_congr {tag tag' : Option String}
    (h : ScalarType.ofTag? tag = ScalarType.ofTag? tag') (text : Text) (plain : Bool) :
    classify text plain tag = classify text plain tag' := by
  simp only [classify, literalType, ScalarType.of, h]

end Scalar

/-- **Scalars are classified soundly.**  The value of a scalar has the type that is given with it,
and a string is the text of the scalar.  The type is that of the tag or the spelling, apart from
switch words, each of which is a truth value, and from what is no literal of that type.  Two tags
with one expanded name, or two that name no type, give the same. -/
theorem classification_sound (text : Text) (plain : Bool) (tag : Option String) :
    let result := Scalar.classify text plain tag
    (result.type = .null ↔ result = .null)
    ∧ (result.type = .bool ↔ ∃ b, result = .bool b)
    ∧ (result.type = .int ↔ ∃ n, result = .number (.int n))
    ∧ (result.type = .float ↔ ∃ x, result = .number (.float x))
    ∧ (result.type = .string ↔ result = .string text)
    ∧ result.type
        = (if Scalar.IsSwitch text plain tag then .bool
          else if Scalar.ofText? (.of text plain tag) text = none then .string
          else .of text plain tag)
    ∧ ∀ tag' : Option String,
        (tag.map (fun t => Tag.expand t) = tag'.map (fun t => Tag.expand t)
          ∨ (¬ Tag.IsTyped tag ∧ ¬ Tag.IsTyped tag')) →
        Scalar.classify text plain tag' = result := by
  intro result
  obtain ⟨hnull, hbool, hint, hfloat, hstring⟩ := result.type_iff
  refine ⟨hnull, hbool, hint, hfloat, ?_, Scalar.classify_type text plain tag, fun tag' htags => ?_⟩
  · rw [hstring]
    constructor
    · rintro ⟨s, hs⟩
      rw [hs, Scalar.classify_string hs]
    · exact fun h => ⟨text, h⟩
  · refine Scalar.classify_congr ?_ text plain
    obtain hname | ⟨huntyped, huntyped'⟩ := htags
    · exact (ScalarType.ofTag?_congr hname).symm
    · rw [(ScalarType.ofTag?_eq_none_iff tag).mpr huntyped,
        (ScalarType.ofTag?_eq_none_iff tag').mpr huntyped']

/-- A tag that names no type leaves `yes` a truth value. -/
theorem classification_sound_switch :
    ¬ Tag.IsTyped none ∧ ¬ Tag.IsTyped (some "!Ref")
    ∧ Scalar.classify (Text.ofString "yes") true none = .bool true
    ∧ Scalar.classify (Text.ofString "yes") true (some "!Ref")
        = Scalar.classify (Text.ofString "yes") true none := by
  have huntyped : ¬ Tag.IsTyped none := by decide
  have huntyped' : ¬ Tag.IsTyped (some "!Ref") := by decide
  refine ⟨huntyped, huntyped', by decide, ?_⟩
  exact (classification_sound (Text.ofString "yes") true none).2.2.2.2.2.2 (some "!Ref")
    (.inr ⟨huntyped, huntyped'⟩)

end YamlSpan
