import Mathlib.Data.List.Forall2
import YamlSpan.Tag

/-!
# What a registry knows

A registry knows what its history says: of all registrations under an expanded name the last one
decides, and the names stand in the order in which they first came.  The history of a registry are
the specifications that it was built from and the registrations that succeeded since; those that
fail and the questions in between leave no trace.

* `TagSpec.IsSaidBy`            what a specification says
* `TagRegistry.ofHistory`       the registry with a history
* `TagRegistry.Use`             a registration or a question
* `TagRegistry.Follows`         a registry that knows what a history says
* `registry_follows_history`    a registry knows what its history says, however long
-/

namespace YamlSpan

/-! ### specifications -/

/-- The pieces between the blanks of a text, without the empty ones. -/
def Text.pieces (text : Text) : List Text :=
  (text.splitOnP (CodePoint.isOf isBlank)).filter fun piece => !piece.isEmpty

/-- The word under way is put in front of the first piece. -/
theorem Text.wordsAfter_eq (word text : Text) :
    wordsAfter word text
      = ((text.splitOnP (CodePoint.isOf isBlank)).modifyHead (word.reverse ++ ·)).filter
          fun piece => !piece.isEmpty := by
  induction text generalizing word with
  | nil => cases word <;> simp [wordsAfter]
  | cons c rest ih =>
    rw [wordsAfter, List.splitOnP_cons_eq_if_modifyHead]
    by_cases hc : c.isOf isBlank = true
    · have hrest := ih []
      rw [List.reverse_nil, show (fun piece : Text => [] ++ piece) = id from rfl,
        List.modifyHead_id, id] at hrest
      rw [if_pos hc, if_pos hc, hrest]
      cases word <;> simp
    · rw [if_neg hc, if_neg hc, ih, List.modifyHead_modifyHead]
      congr 2
      funext piece
      simp

theorem Text.words_eq_pieces (text : Text) : words text = text.pieces := by
  rw [words, wordsAfter_eq, List.reverse_nil, show (fun piece : Text => [] ++ piece) = id from rfl,
    List.modifyHead_id]
  rfl

theorem TagKind.ofName?_eq_some_iff (name : Text) (kind : TagKind) :
    ofName? name = some kind ↔ name = Text.ofString kind.name := by
  constructor
  · intro h
    have hname := List.find?_some h
    exact (of_decide_eq_true hname).symm
  · rintro rfl
    cases kind <;> decide

theorem TagKind.ofName?_name (kind : TagKind) : ofName? kind.name = some kind :=
  (ofName?_eq_some_iff _ kind).mpr rfl

namespace TagSpec

/-- A specification says that a tag is for a kind: it has the tag as its only word, which is for
scalars, or the tag and the name of the kind as its two words. -/
def IsSaidBy (s : TagSpec) (spec : Text) : Prop :=
  (spec.pieces = [s.name] ∧ s.kind = .scalar)
    ∨ spec.pieces = [s.name, Text.ofString s.kind.name]

/-- Does a specification say anything? -/
def IsValid (spec : Text) : Prop := ∃ s : TagSpec, s.IsSaidBy spec

theorem parse_eq_ok_iff (spec : Text) (s : TagSpec) : parse spec = .ok s ↔ s.IsSaidBy spec := by
  obtain ⟨name, kind⟩ := s
  rw [parse, IsSaidBy, Text.words_eq_pieces]
  match spec.pieces with
  | [] => simp
  | [word] => simp [eq_comm]
  | [word, kindName] =>
    have hkind := TagKind.ofName?_eq_some_iff kindName
    cases hfound : TagKind.ofName? kindName with
    | none =>
      have hnone : kindName ≠ Text.ofString kind.name := by
        intro h
        rw [(hkind kind).mpr h] at hfound
        cases hfound
      simp [hfound, hnone]
    | some found =>
      have hsame : kindName = Text.ofString kind.name ↔ found = kind := by
        rw [← hkind, hfound, Option.some.injEq]
      simp [hfound, hsame]
  | _ :: _ :: _ :: _ => simp

theorem isValid_iff (spec : Text) : IsValid spec ↔ ∃ s, parse spec = .ok s := by
  simp only [IsValid, parse_eq_ok_iff]

theorem not_isValid_of_error {spec : Text} {e : TagError} (h : parse spec = .error e) :
    ¬ IsValid spec := by
  rw [isValid_iff, h]
  rintro ⟨s, ⟨⟩⟩

theorem isValid_of_said {said : List TagSpec} {specs : List Text}
    (h : List.Forall₂ IsSaidBy said specs) : ∀ spec ∈ specs, IsValid spec := by
  induction h with
  | nil => simp
  | cons hspec _ ih => exact List.forall_mem_cons.mpr ⟨⟨_, hspec⟩, ih⟩

/-- A list of specifications says something throughout, or up to a first one that says nothing. -/
theorem isSaidBy_or_first (specs : List Text) :
    (∃ said, List.Forall₂ IsSaidBy said specs)
      ∨ ∃ front bad back e, specs = front ++ bad :: back ∧ (∀ spec ∈ front, IsValid spec)
        ∧ parse bad = .error e := by
  induction specs with
  | nil => exact .inl ⟨[], .nil⟩
  | cons spec rest ih =>
    cases hspec : parse spec with
    | error e => exact .inr ⟨[], spec, rest, e, rfl, by simp, hspec⟩
    | ok s =>
      obtain ⟨said, hsaid⟩ | ⟨front, bad, back, e, rfl, hfront, hbad⟩ := ih
      · exact .inl ⟨s :: said, .cons ((parse_eq_ok_iff spec s).mp hspec) hsaid⟩
      · refine .inr ⟨spec :: front, bad, back, e, rfl, ?_, hbad⟩
        exact List.forall_mem_cons.mpr ⟨(isValid_iff spec).mpr ⟨s, hspec⟩, hfront⟩

end TagSpec

/-! ### dictionaries -/

namespace Assoc

variable {κ α : Type} [BEq κ] [LawfulBEq κ]

/-- In a dictionary with each key once, each pair is found. -/
theorem lookup_of_mem {dict : List (κ × α)} (hnodup : (dict.map Prod.fst).Nodup) {key : κ}
    {value : α} (hmem : (key, value) ∈ dict) : dict.lookup key = some value := by
  obtain ⟨front, back, rfl⟩ := List.append_of_mem hmem
  refine List.lookup_eq_some_iff.mpr ⟨front, back, rfl, fun pair hpair => ?_⟩
  rw [List.map_append, List.map_cons, List.nodup_append] at hnodup
  have hne := hnodup.2.2 pair.1 (List.mem_map_of_mem hpair) key List.mem_cons_self
  simpa using Ne.symm hne

variable [DecidableEq κ]

theorem nodup_keys_put {dict : List (κ × α)} (h : (dict.map Prod.fst).Nodup) (key : κ)
    (value : α) : ((put key value dict).map Prod.fst).Nodup := by
  rw [keys_put]
  split
  · exact h
  next hnew =>
    refine List.nodup_append.mpr ⟨h, List.pairwise_singleton _ key, fun a ha b hb => ?_⟩
    rw [List.mem_singleton.mp hb]
    intro hab
    exact hnew (hab ▸ ha)

theorem nodup_keys_ofList (pairs : List (κ × α)) : ((ofList pairs).map Prod.fst).Nodup := by
  refine List.foldlRecOn (motive := fun dict : List (κ × α) => (dict.map Prod.fst).Nodup) pairs _
    (by simp) ?_
  intro dict h pair _
  exact nodup_keys_put h pair.1 pair.2

/-- Putting a key with the value that it has changes nothing. -/
theorem put_of_lookup {key : κ} {value : α} {dict : List (κ × α)}
    (h : dict.lookup key = some value) : put key value dict = dict := by
  induction dict with
  | nil => cases h
  | cons pair rest ih =>
    obtain ⟨k, v⟩ := pair
    rw [lookup_cons] at h
    rw [put]
    by_cases hk : k = key
    · rw [if_pos hk] at h ⊢
      rw [Option.some.inj h]
    · rw [if_neg hk] at h ⊢
      rw [ih h]

end Assoc

/-! ### histories -/

/-- An expanded name stays as it is. -/
theorem Tag.expand_expand (tag : Text) : expand (expand tag) = expand tag := by
  fun_cases expand tag with
  | case1 rest => rfl
  | case2 tag hlong =>
    rw [expand]
    exact hlong

/-- The short form of a core tag has the expanded name of the long one. -/
theorem Tag.expand_short (name : Text) :
    expand ("!!" ++ name) = expand (Text.ofString core ++ name) := rfl

namespace TagRegistry

/-- The kind of the last registration under the expanded name of a tag. -/
def lastKind? (history : List TagSpec) (tag : Text) : Option TagKind :=
  (history.filter fun s => Tag.expand s.name = Tag.expand tag).getLast?.map TagSpec.kind

/-- The registry with a history, first registration first. -/
def ofHistory (history : List TagSpec) : TagRegistry :=
  ⟨Assoc.ofList (history.map fun s => (Tag.expand s.name, s.kind))⟩

theorem insert_ofHistory (history : List TagSpec) (s : TagSpec) :
    (ofHistory history).insert s.name s.kind = ofHistory (history ++ [s]) := by
  simp [insert, ofHistory, Assoc.ofList]

theorem insertSpecs_ofHistory (history : List TagSpec) {said : List TagSpec} {specs : List Text}
    (h : List.Forall₂ TagSpec.IsSaidBy said specs) :
    (ofHistory history).insertSpecs specs = .ok (ofHistory (history ++ said)) := by
  induction h generalizing history with
  | nil => rw [List.append_nil, insertSpecs]
  | cons hspec _ ih =>
    rw [insertSpecs, (TagSpec.parse_eq_ok_iff _ _).mpr hspec]
    simp only
    rw [insert_ofHistory, ih, List.append_assoc, List.singleton_append]

theorem insertSpecs_error {front back : List Text} {bad : Text} {e : TagError}
    (hfront : ∀ spec ∈ front, TagSpec.IsValid spec) (hbad : TagSpec.parse bad = .error e)
    (r : TagRegistry) : r.insertSpecs (front ++ bad :: back) = .error e := by
  induction front generalizing r with
  | nil => rw [List.nil_append, insertSpecs, hbad]
  | cons spec rest ih =>
    obtain ⟨⟨s, hspec⟩, hrest⟩ := List.forall_mem_cons.mp hfront
    rw [List.cons_append, insertSpecs, (TagSpec.parse_eq_ok_iff _ _).mpr hspec]
    exact ih hrest _

theorem ofSpecs_ok {said : List TagSpec} {specs : List Text}
    (h : List.Forall₂ TagSpec.IsSaidBy said specs) : ofSpecs specs = .ok (ofHistory said) :=
  insertSpecs_ofHistory [] h

theorem ofSpecs_error_iff (specs : List Text) (e : TagError) :
    ofSpecs specs = .error e ↔ ∃ front bad back, specs = front ++ bad :: back
      ∧ (∀ spec ∈ front, TagSpec.IsValid spec) ∧ ¬ TagSpec.IsValid bad
      ∧ TagSpec.parse bad = .error e := by
  constructor
  · intro herror
    obtain ⟨said, hsaid⟩ | ⟨front, bad, back, e', rfl, hfront, hbad⟩ :=
      TagSpec.isSaidBy_or_first specs
    · rw [ofSpecs_ok hsaid] at herror
      cases herror
    · rw [ofSpecs, insertSpecs_error hfront hbad] at herror
      cases herror
      exact ⟨front, bad, back, rfl, hfront, TagSpec.not_isValid_of_error hbad, hbad⟩
  · rintro ⟨front, bad, back, rfl, hfront, -, hbad⟩
    exact insertSpecs_error hfront hbad empty

/-- A registry that was built has the history that its specifications say. -/
theorem exists_history {specs : List Text} {r : TagRegistry} (h : ofSpecs specs = .ok r) :
    ∃ said, List.Forall₂ TagSpec.IsSaidBy said specs ∧ r = ofHistory said := by
  obtain ⟨said, hsaid⟩ | ⟨front, bad, back, e, rfl, hfront, hbad⟩ :=
    TagSpec.isSaidBy_or_first specs
  · rw [ofSpecs_ok hsaid] at h
    exact ⟨said, hsaid, (Except.ok.inj h).symm⟩
  · rw [ofSpecs, insertSpecs_error hfront hbad] at h
    cases h

theorem exists_error_iff (specs : List Text) :
    (∃ e, ofSpecs specs = .error e) ↔ ∃ spec ∈ specs, ¬ TagSpec.IsValid spec := by
  constructor
  · rintro ⟨e, herror⟩
    obtain ⟨front, bad, back, rfl, -, hinvalid, -⟩ := (ofSpecs_error_iff specs e).mp herror
    exact ⟨bad, by simp, hinvalid⟩
  · rintro ⟨spec, hspec, hinvalid⟩
    cases hbuilt : ofSpecs specs with
    | error e => exact ⟨e, rfl⟩
    | ok r =>
      obtain ⟨said, hsaid, -⟩ := exists_history hbuilt
      exact absurd (TagSpec.isValid_of_said hsaid spec hspec) hinvalid

/-! ### what a history says -/

theorem lookup_custom (history : List TagSpec) (tag : Text) :
    (ofHistory history).custom.lookup (Tag.expand tag) = lastKind? history tag := by
  have hfind : ∀ l : List TagSpec,
      (l.map fun s => (Tag.expand s.name, s.kind)).lookup (Tag.expand tag)
        = (l.find? fun s => Tag.expand s.name = Tag.expand tag).map TagSpec.kind := by
    intro l
    induction l with
    | nil => rfl
    | cons s rest ih =>
      rw [List.map_cons, Assoc.lookup_cons, List.find?_cons, ih]
      by_cases hs : Tag.expand s.name = Tag.expand tag <;> simp [hs]
  rw [ofHistory, Assoc.lookup_ofList, ← List.map_reverse, hfind, lastKind?, List.getLast?_filter]

/-- A registry knows what a history says. -/
structure Follows (r : TagRegistry) (history : List TagSpec) : Prop where
  lookup : ∀ tag, r.lookup tag
    = (lastKind? history tag).or (Tag.coreKinds.lookup (Tag.expand tag))
  names : r.specs.map TagSpec.name = (history.map fun s => Tag.expand s.name).eraseDups
  once : (r.specs.map TagSpec.name).Nodup
  kinds : ∀ s ∈ r.specs, lastKind? history s.name = some s.kind

theorem ofHistory_follows (history : List TagSpec) : (ofHistory history).Follows history := by
  have hnames : (ofHistory history).specs.map TagSpec.name
      = (ofHistory history).custom.map Prod.fst := by
    rw [specs, List.map_map]
    rfl
  have hnodup := Assoc.nodup_keys_ofList (history.map fun s => (Tag.expand s.name, s.kind))
  refine ⟨fun tag => ?_, ?_, ?_, fun s hs => ?_⟩
  · rw [TagRegistry.lookup, lookup_custom]
  · rw [hnames, ofHistory, Assoc.keys_ofList, List.map_map]
    rfl
  · rw [hnames]
    exact hnodup
  · obtain ⟨⟨name, kind⟩, hmem, rfl⟩ := List.mem_map.mp hs
    have hfound := Assoc.lookup_of_mem hnodup hmem
    have hname : name ∈ (ofHistory history).custom.map Prod.fst := List.mem_map_of_mem hmem
    -- the names of a registry are expanded already
    have hexpanded : Tag.expand name = name := by
      rw [ofHistory, Assoc.keys_ofList, List.mem_eraseDups, List.map_map] at hname
      obtain ⟨s, -, rfl⟩ := List.mem_map.mp hname
      exact Tag.expand_expand s.name
    rw [← lookup_custom, hexpanded]
    exact hfound

/-! ### uses -/

/-- A use of a registry: a tag is registered for a kind given by name, or looked up. -/
inductive Use where
  | register (tag kind : Text)
  | lookup (tag : Text)
  deriving DecidableEq, Repr

/-- The registry behind a use: a registration that fails leaves the one in front of it. -/
def behind (r : TagRegistry) : Use → TagRegistry
  | .register tag kind =>
    match r.register tag kind with
    | .ok registered => registered
    | .error _ => r
  | .lookup _ => r

/-- The registry behind uses in a row. -/
def behindAll (r : TagRegistry) (uses : List Use) : TagRegistry := uses.foldl behind r

/-- The registration that a use adds to the history. -/
def Use.made? : Use → Option TagSpec
  | .register tag kind => (TagKind.ofName? kind).map fun kind => ⟨tag, kind⟩
  | .lookup _ => none

theorem register_name (r : TagRegistry) (tag : Text) (kind : TagKind) :
    r.register tag kind.name = .ok (r.insert tag kind) := by
  rw [register, TagKind.ofName?_name]

theorem register_unknown (r : TagRegistry) (tag : Text) {kind : Text}
    (h : ∀ k : TagKind, kind ≠ Text.ofString k.name) :
    r.register tag kind = .error (.unknownKind kind tag) := by
  have hnone : TagKind.ofName? kind = none := by
    cases hkind : TagKind.ofName? kind with
    | none => rfl
    | some k => exact absurd ((TagKind.ofName?_eq_some_iff kind k).mp hkind) (h k)
  rw [register, hnone]

theorem behind_ofHistory (history : List TagSpec) (use : Use) :
    (ofHistory history).behind use = ofHistory (history ++ use.made?.toList) := by
  cases use with
  | lookup tag =>
    rw [behind, Use.made?, Option.toList_none, List.append_nil]
  | register tag kind =>
    rw [behind, register, Use.made?]
    cases TagKind.ofName? kind with
    | none =>
      rw [Option.map_none, Option.toList_none, List.append_nil]
    | some kind => exact insert_ofHistory history ⟨tag, kind⟩

theorem behindAll_ofHistory (history : List TagSpec) (uses : List Use) :
    (ofHistory history).behindAll uses = ofHistory (history ++ uses.filterMap Use.made?) := by
  induction uses generalizing history with
  | nil => rw [List.filterMap_nil, List.append_nil]; rfl
  | cons use rest ih =>
    have hstep : (ofHistory history).behindAll (use :: rest)
        = ((ofHistory history).behind use).behindAll rest := rfl
    rw [hstep, behind_ofHistory, ih, List.append_assoc]
    cases hmade : use.made? with
    | none => rw [List.filterMap_cons_none hmade]; rfl
    | some s => rw [List.filterMap_cons_some hmade]; rfl

theorem register_again {history : List TagSpec} {tag : Text} {kind : TagKind}
    (h : lastKind? history tag = some kind) :
    (ofHistory history).register tag kind.name = .ok (ofHistory history) := by
  rw [← lookup_custom] at h
  rw [register_name, insert, Assoc.put_of_lookup h]

theorem behind_short (r : TagRegistry) (name kind : Text) :
    r.behind (.register ("!!" ++ name) kind)
      = r.behind (.register (Text.ofString Tag.core ++ name) kind) := by
  rw [behind, behind, register, register]
  cases TagKind.ofName? kind with
  | none => rfl
  | some kind =>
    show r.insert _ kind = r.insert _ kind
    rw [insert, insert, Tag.expand_short]

end TagRegistry

open TagRegistry

/-- **A registry knows what its history says.**  Building one fails exactly if some specification
says nothing, and with the error of the first such one.  Otherwise, whatever is registered and asked
afterwards, a tag has the kind of the last registration under its expanded name, else that of the
core tag, and the tags that are listed have each expanded name once, in order of first registration,
with its last kind.  A kind that there is not is refused and leaves the registry as it was, a
registration for the kind that is already last changes nothing, and the short and the long form of a
core tag are the same in registrations and questions. -/
theorem registry_follows_history (specs : List Text) :
    (∀ e, ofSpecs specs = .error e ↔ ∃ front bad back, specs = front ++ bad :: back
      ∧ (∀ spec ∈ front, TagSpec.IsValid spec) ∧ ¬ TagSpec.IsValid bad
      ∧ TagSpec.parse bad = .error e)
    ∧ ((∃ e, ofSpecs specs = .error e) ↔ ∃ spec ∈ specs, ¬ TagSpec.IsValid spec)
    ∧ ∀ r, ofSpecs specs = .ok r → ∃ said, List.Forall₂ TagSpec.IsSaidBy said specs
      ∧ ∀ uses : List Use,
        let left := r.behindAll uses
        let history := said ++ uses.filterMap Use.made?
        left.Follows history
        ∧ (∀ tag kind, (∀ k : TagKind, kind ≠ Text.ofString k.name) →
          left.register tag kind = .error (.unknownKind kind tag)
            ∧ left.behind (.register tag kind) = left)
        ∧ (∀ tag (k : TagKind), lastKind? history tag = some k →
          left.register tag k.name = .ok left)
        ∧ ∀ name kind, left.lookup ("!!" ++ name) = left.lookup (Text.ofString Tag.core ++ name)
          ∧ left.behind (.register ("!!" ++ name) kind)
            = left.behind (.register (Text.ofString Tag.core ++ name) kind) := by
  refine ⟨ofSpecs_error_iff specs, exists_error_iff specs, fun r hr => ?_⟩
  obtain ⟨said, hsaid, rfl⟩ := exists_history hr
  refine ⟨said, hsaid, fun uses => ?_⟩
  rw [behindAll_ofHistory]
  refine ⟨ofHistory_follows _, fun tag kind hkind => ?_, fun tag k => register_again,
    fun name kind => ⟨?_, behind_short _ name kind⟩⟩
  · have hrefused := register_unknown (ofHistory (said ++ uses.filterMap Use.made?)) tag hkind
    exact ⟨hrefused, by rw [behind, hrefused]⟩
  · rw [TagRegistry.lookup, TagRegistry.lookup, Tag.expand_short]

/-- A core tag that was built in its short form is registered again in its long form, for another
kind, and a further registration names no kind. -/
theorem registry_follows_history_short :
    let specs : List Text := ["!!a mapping", " !b "]
    let r : TagRegistry := ⟨[("tag:yaml.org,2002:a", .mapping), ("!b", .scalar)]⟩
    let again : TagSpec := ⟨"tag:yaml.org,2002:a", .sequence⟩
    let uses : List Use := [.register again.name again.kind.name, .register "!b" "tuple"]
    let left := r.behindAll uses
    ofSpecs specs = .ok r ∧ (∀ k : TagKind, "tuple" ≠ Text.ofString k.name)
    ∧ left.register "!b" "tuple" = .error (.unknownKind "tuple" "!b")
    ∧ left.register "!!a" TagKind.sequence.name = .ok left
    ∧ ∃ said, List.Forall₂ TagSpec.IsSaidBy said specs ∧ left.Follows (said ++ [again]) := by
  intro specs r again uses left
  have hbuilt : ofSpecs specs = .ok r := by decide
  have htuple : ∀ k : TagKind, "tuple" ≠ Text.ofString k.name := by
    intro k
    cases k <;> decide
  obtain ⟨said, hsaid, huses⟩ := (registry_follows_history specs).2.2 r hbuilt
  obtain ⟨hfollows, hrefused, hrepeated, -⟩ := huses uses
  have hmade : uses.filterMap Use.made? = [again] := by decide
  rw [hmade] at hfollows hrepeated
  have hlast : lastKind? (said ++ [again]) "!!a" = some .sequence := by
    have hname : Tag.expand again.name = Tag.expand "!!a" := by decide
    simp [lastKind?, hname, List.filter_append, again]
  exact ⟨hbuilt, htuple, (hrefused "!b" "tuple" htuple).1, hrepeated "!!a" .sequence hlast, said,
    hsaid, hfollows⟩

end YamlSpan
