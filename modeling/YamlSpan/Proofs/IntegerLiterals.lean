import YamlSpan.Proofs.Classification
import YamlSpan.Proofs.Digits

/-!
# Integer literals

An integer literal is a sign, the mark of a radix and digits of it, with separators anywhere.  The
digits behind a mark are read as a numeral of their own, so more is taken than the literals: there
may be margins, a second sign and a second mark around the digits, and decimal digits of all scripts
count.

* `IntSpelling`                    the parts of an integer literal
* `Literal.Takes`                  what is taken as an integer
* `Literal.int_ok_iff`             `Literal.int` reads what is taken
* `Literal.IsNeat`                 nothing but digits can be read behind a mark
* `integers_read_are_literals`     what is read is a literal, if it is neat
* `second_sign_is_read`            a second sign is read
-/

namespace YamlSpan

/-! ### literals -/

/-- The parts of an integer literal. -/
structure IntSpelling where
  sign : Sign
  radix : Radix
  digits : List Char
  valid : ∀ c ∈ digits, radix.HasDigit c

/-- A text without its separators. -/
def Literal.bare (text : String) : List Char := text.toList.filter (· != '_')

namespace IntSpelling

variable (s : IntSpelling)

def chars : List Char := s.sign.chars ++ (s.radix.mark ++ s.digits)

def value : Int := s.sign.apply (s.radix.valueOf s.digits)

/-- A text spells the literal, with separators anywhere. -/
def Of (text : String) : Prop := Literal.bare text = s.chars

/-- There is a digit, and there are not too many if they are decimal. -/
def IsReadable : Prop :=
  s.digits ≠ [] ∧ (s.radix = .decimal → s.digits.length ≤ Numeral.digitLimit)

instance : Decidable s.IsReadable := inferInstanceAs (Decidable (_ ∧ (_ → _)))

/-- Behind the mark of hexadecimal digits there are no others. -/
theorem hasDigit_of_hex {text : String} {rest : List Char} (hof : s.Of text)
    (h : Literal.bare text = '0' :: 'x' :: rest) : ∀ c ∈ rest, Radix.hex.HasDigit c := by
  obtain ⟨sign, radix, digits, hvalid⟩ := s
  rw [Of, h] at hof
  cases sign <;> cases radix <;>
    simp only [chars, Sign.chars, Radix.mark, Radix.letter?, List.nil_append, List.cons_append,
      List.cons.injEq, Char.reduceEq, true_and, false_and, and_false] at hof
  · -- without a mark the letter of the mark would be a digit
    exact absurd (hvalid 'x' (by simp [← hof])) (by decide)
  · exact hof ▸ hvalid

end IntSpelling

/-! ### what is taken -/

namespace Literal

/-- What is taken as an integer once the separators are dropped: decimal digits of any script, or a
numeral behind the mark of its radix, with a sign in front. -/
inductive Takes : List Char → Int → Prop
  | decimal (sign : Sign) {digits : List Char} (hne : digits ≠ [])
      (hdigits : ∀ c ∈ digits, Radix.decimal.HasDigit (Numeral.fold c))
      (hlimit : digits.length ≤ Numeral.digitLimit) :
      Takes (sign.chars ++ digits)
        (sign.apply (Radix.decimal.valueOf (digits.map Numeral.fold)))
  | marked (sign : Sign) {radix : Radix} (hradix : radix ≠ .decimal) {rest : List Char}
      (form : Numeral.Form radix) (hform : rest.map Numeral.fold = form.chars) :
      Takes (sign.chars ++ (radix.mark ++ rest)) (sign.apply form.value)

theorem exists_body (text : String) :
    ∃ (s : Sign) (digits : List Char),
      bare text = s.chars ++ digits ∧ body text = (s.isMinus, digits) := by
  obtain ⟨s, hbare, hsign⟩ := Sign.splitSign_spec (bare text)
  exact ⟨s, _, hbare, by rw [← hsign]; rfl⟩

theorem toOption_intIn (s : Sign) (base : Nat) (digits : List Char) :
    (intIn s.isMinus base digits).toOption = (Numeral.read base digits).toOption.map s.apply := by
  rw [intIn]
  cases Numeral.read base digits with
  | error e => rfl
  | ok m => cases s <;> rfl

theorem toOption_eq_some_iff {ε α : Type} {x : Except ε α} {a : α} :
    x.toOption = some a ↔ x = .ok a := by
  cases x <;> simp [Except.toOption]

theorem intIn_ok_iff (s : Sign) (base : Nat) (digits : List Char) (n : Int) :
    intIn s.isMinus base digits = .ok n ↔
      ∃ m, Numeral.read base digits = .ok m ∧ s.apply m = n := by
  simp only [← toOption_eq_some_iff, toOption_intIn, Option.map_eq_some_iff]

theorem splitSign_marked (s : Sign) {r : Radix} (hr : r ≠ .decimal) (rest : List Char) :
    Numeral.splitSign (s.chars ++ (r.mark ++ rest)) = (s.isMinus, r.mark ++ rest) := by
  refine Sign.splitSign_append s fun _ => ?_
  cases r <;> simp [Radix.mark, Radix.letter?] at hr ⊢

theorem int_marked {text : String} {s : Sign} {r : Radix} {rest : List Char} (hr : r ≠ .decimal)
    (h : bare text = s.chars ++ (r.mark ++ rest)) :
    int text = intIn s.isMinus r.base rest := by
  have hbody : body text = (s.isMinus, r.mark ++ rest) := by
    rw [body, ← bare, h, splitSign_marked s hr]
  cases r with
  | decimal => exact absurd rfl hr
  | binary => simp [int, hbody, Radix.mark, Radix.letter?, Radix.base]
  | octal => simp [int, hbody, Radix.mark, Radix.letter?, Radix.base]
  | hex => simp [int, hbody, Radix.mark, Radix.letter?, Radix.base]

theorem int_unmarked {text : String} {s : Sign} {digits : List Char}
    (h : bare text = s.chars ++ digits)
    (hdigits : ∀ c ∈ digits, Radix.decimal.HasDigit (Numeral.fold c)) :
    int text = if digits = [] then .error (.notInt text)
      else intIn s.isMinus Radix.decimal.base digits := by
  have hother : ∀ c ∈ ['+', '-', 'x', 'o', 'b'], c ∉ digits := by
    have hnone : ∀ c ∈ ['+', '-', 'x', 'o', 'b'], ¬ Radix.decimal.HasDigit (Numeral.fold c) :=
      List.all_iff_forall_prop.mp (by decide)
    exact fun c hc hmem => hnone c hc (hdigits c hmem)
  have hbody : body text = (s.isMinus, digits) := by
    rw [body, ← bare, h]
    refine Sign.splitSign_append s fun _ => ⟨fun hplus => ?_, fun hminus => ?_⟩
    · exact hother '+' (by decide) (List.mem_of_mem_head? hplus)
    · exact hother '-' (by decide) (List.mem_of_mem_head? hminus)
  have hall : digits.all Text.isDigit = true :=
    List.all_eq_true.mpr fun c hc => Numeral.isDigit_of_fold (hdigits c hc)
  simp only [int, hbody]
  split
  · exact absurd (by simp) (hother 'x' (by decide))
  · exact absurd (by simp) (hother 'o' (by decide))
  · exact absurd (by simp) (hother 'b' (by decide))
  · simp [hall, Radix.base]

/-- Digits of any script are read as digits only. -/
theorem isTight_digits {digits : List Char} (h : ∀ c ∈ digits, Text.isDigit c = true) :
    Numeral.IsTight .decimal (digits.map Numeral.fold) := by
  refine Numeral.isTight_of_forall (fun c hc => ?_) fun _ _ _ => nofun
  obtain ⟨d, hd, rfl⟩ := List.mem_map.mp hc
  exact Numeral.fold_of_isDigit (h d hd)

theorem takes_of_unmarked {s : Sign} {digits : List Char} {n : Int} (hne : digits ≠ [])
    (hdigits : ∀ c ∈ digits, Text.isDigit c = true)
    (h : intIn s.isMinus 10 digits = .ok n) : Takes (s.chars ++ digits) n := by
  obtain ⟨m, hread, rfl⟩ := (intIn_ok_iff s 10 digits n).mp h
  obtain ⟨f, hform, hlimit, rfl⟩ := (Numeral.read_eq_ok_iff .decimal digits m).mp hread
  obtain ⟨hsign, hchars⟩ := f.of_isTight (hform ▸ isTight_digits hdigits)
  rw [hchars] at hform
  have hvalue : f.value = Radix.decimal.valueOf (digits.map Numeral.fold) := by
    rw [Numeral.Form.value, hsign, hform]
    rfl
  rw [hvalue]
  refine .decimal s hne (fun c hc => f.digits_valid _ ?_) ?_
  · exact hform ▸ List.mem_map_of_mem hc
  · rw [← List.length_map (f := Numeral.fold), hform]
    exact hlimit rfl

theorem takes_of_marked {s : Sign} {r : Radix} {rest : List Char} {n : Int} (hr : r ≠ .decimal)
    (h : intIn s.isMinus r.base rest = .ok n) : Takes (s.chars ++ (r.mark ++ rest)) n := by
  obtain ⟨m, hread, rfl⟩ := (intIn_ok_iff s r.base rest n).mp h
  obtain ⟨f, hform, -, rfl⟩ := (Numeral.read_eq_ok_iff r rest m).mp hread
  exact .marked s hr f hform

/-- **What is read as an integer.** -/
theorem int_ok_iff (text : String) (n : Int) : int text = .ok n ↔ Takes (bare text) n := by
  constructor
  · intro h
    obtain ⟨s, digits, hbare, hbody⟩ := exists_body text
    simp only [int, hbody] at h
    rw [hbare]
    split at h
    next rest => exact takes_of_marked (r := .hex) nofun h
    next rest => exact takes_of_marked (r := .octal) nofun h
    next rest => exact takes_of_marked (r := .binary) nofun h
    next =>
      split at h
      · cases h
      next hread =>
        obtain ⟨hne, hdigits⟩ : digits ≠ [] ∧ ∀ c ∈ digits, Text.isDigit c = true := by
          simpa using hread
        exact takes_of_unmarked hne hdigits h
  · intro h
    generalize hbare : bare text = chars at h
    cases h with
    | @decimal sign digits hne hdigits hlimit =>
      have hfolded : digits.map Numeral.fold ≠ [] := by simpa using hne
      rw [int_unmarked hbare hdigits, if_neg hne, intIn_ok_iff]
      refine ⟨_, (Numeral.read_eq_ok_iff _ _ _).mpr
        ⟨.ofDigits hfolded (List.forall_mem_map.mpr hdigits), ?_, fun _ => ?_, rfl⟩, rfl⟩
      · rw [Numeral.Form.chars_ofDigits]
      · simpa [Numeral.Form.ofDigits] using hlimit
    | marked sign hradix form hform =>
      rw [int_marked hradix hbare, intIn_ok_iff]
      exact ⟨form.value, (Numeral.read_eq_ok_iff _ _ _).mpr
        ⟨form, hform, fun h => absurd h hradix, rfl⟩, rfl⟩

/-! ### literals among what is taken -/

/-- **The value of a literal**, if it has digits and not too many. -/
theorem int_of_spelling {text : String} (s : IntSpelling) (h : s.Of text) :
    (int text).toOption = if s.IsReadable then some s.value else none := by
  obtain ⟨sign, radix, digits, hvalid⟩ := s
  have hvalue : ((Numeral.read radix.base digits).toOption.map sign.apply)
      = if digits ≠ [] ∧ (radix = .decimal → digits.length ≤ Numeral.digitLimit)
        then some (sign.apply (radix.valueOf digits)) else none := by
    rw [Numeral.read_digits hvalid, apply_ite (Option.map sign.apply)]
    rfl
  refine Eq.trans ?_ hvalue
  by_cases hradix : radix = .decimal
  · subst hradix
    have hfold : ∀ c ∈ digits, Radix.decimal.HasDigit (Numeral.fold c) := by
      intro c hc
      rw [(hvalid c hc).apart.2.2.2.2]
      exact hvalid c hc
    have hbare : bare text = sign.chars ++ digits := h
    rw [int_unmarked hbare hfold, ← toOption_intIn]
    split
    next hempty =>
      rw [hempty]
      rfl
    next => rfl
  · rw [int_marked hradix h, toOption_intIn]

/-- All characters are ASCII, and what is behind a mark begins with no margin, sign or second mark
and ends with no margin. -/
structure IsNeat (chars : List Char) : Prop where
  ascii : ∀ c ∈ chars, c.toNat < 0x80
  tight : ∀ (s : Sign) (r : Radix) (rest : List Char), r ≠ .decimal →
    chars = s.chars ++ (r.mark ++ rest) → Numeral.IsTight r rest

/-- There is only one mark in a text for what is behind it. -/
theorem isNeat_marked {s : Sign} {r : Radix} {rest : List Char} (hr : r ≠ .decimal)
    (hascii : ∀ c ∈ s.chars ++ (r.mark ++ rest), c.toNat < 0x80) (h : Numeral.IsTight r rest) :
    IsNeat (s.chars ++ (r.mark ++ rest)) := by
  refine ⟨hascii, fun s' r' rest' hr' hsame => ?_⟩
  have hbody : r.mark ++ rest = r'.mark ++ rest' := by
    have hsplit := congrArg (fun chars => (Numeral.splitSign chars).2) hsame
    simpa only [splitSign_marked s hr, splitSign_marked s' hr'] using hsplit
  have hradix : r = r' ∧ rest = rest' := by
    cases r <;> cases r' <;> simp_all [Radix.mark, Radix.letter?]
  obtain ⟨rfl, rfl⟩ := hradix
  exact h

/-- ASCII characters that are read as a numeral are folded to themselves. -/
theorem map_fold_of_ascii {r : Radix} {text : List Char} (f : Numeral.Form r)
    (h : text.map Numeral.fold = f.chars) (hascii : ∀ c ∈ text, c.toNat < 0x80) :
    text = f.chars := by
  have hfold : ∀ c ∈ text, Numeral.fold c = c := by
    intro c hc
    refine Numeral.fold_of_ascii (hascii c hc) fun hnone => f.not_mem ?_
    rw [← h, ← hnone]
    exact List.mem_map_of_mem hc
  rw [← h, List.map_congr_left hfold, List.map_id']

/-- What is taken and neat is a literal. -/
theorem Takes.exists_spelling {text : String} {n : Int} (h : Takes (bare text) n)
    (hneat : IsNeat (bare text)) :
    ∃ s : IntSpelling, s.Of text ∧ s.IsReadable ∧ s.value = n := by
  generalize hbare : bare text = chars at h
  rw [hbare] at hneat
  cases h with
  | @decimal sign digits hne hdigits hlimit =>
    have hfolded : digits.map Numeral.fold ≠ [] := by simpa using hne
    have hvalid := List.forall_mem_map.mpr hdigits
    have hchars := Numeral.Form.chars_ofDigits hfolded hvalid
    have hsame : digits = digits.map Numeral.fold := by
      rw [← hchars]
      exact map_fold_of_ascii _ hchars.symm fun c hc => hneat.ascii c (by simp [hc])
    refine ⟨⟨sign, .decimal, digits, hsame ▸ hvalid⟩, hbare, ⟨hne, fun _ => hlimit⟩, ?_⟩
    show sign.apply (Radix.decimal.valueOf digits) = _
    rw [← hsame]
  | @marked sign radix hradix rest form hform =>
    have hrest : rest = form.chars :=
      map_fold_of_ascii form hform fun c hc => hneat.ascii c (by simp [hc])
    have htight := hneat.tight sign radix rest hradix rfl
    obtain ⟨hsign, hdigits⟩ := form.of_isTight (hrest ▸ htight)
    refine ⟨⟨sign, radix, form.digits, form.digits_valid⟩, ?_, ⟨form.digits_ne, ?_⟩, ?_⟩
    · rw [IntSpelling.Of, hbare, hrest, hdigits]
      rfl
    · exact fun h => absurd h hradix
    · rw [IntSpelling.value, Numeral.Form.value, hsign]
      rfl

theorem exists_spelling_of_int {text : String} {n : Int} (hneat : IsNeat (bare text))
    (h : int text = .ok n) : ∃ s : IntSpelling, s.Of text ∧ s.digits ≠ [] ∧ s.value = n := by
  obtain ⟨s, hof, hreadable, hvalue⟩ := ((int_ok_iff text n).mp h).exists_spelling hneat
  exact ⟨s, hof, hreadable.1, hvalue⟩

theorem exists_error {text : String} (hneat : IsNeat (bare text))
    (hnone : ∀ s : IntSpelling, s.Of text → s.digits = []) : ∃ e, int text = .error e := by
  cases hint : int text with
  | error e => exact ⟨e, rfl⟩
  | ok n =>
    obtain ⟨s, hof, hne, -⟩ := exists_spelling_of_int hneat hint
    exact absurd (hnone s hof) hne

end Literal

/-! ### texts of strings -/

namespace Text

theorem eq_ofChars {text : Text} (h : text.isWellFormed = true) : text = ofChars text.chars := by
  induction text with
  | nil => rfl
  | cons c rest ih =>
    rw [isWellFormed, List.all_cons, Bool.and_eq_true] at h
    cases c with
    | char c => exact congrArg (CodePoint.char c :: ·) (ih h.2)
    | surrogate index => cases h.1

/-- A text that is the text of a string. -/
theorem eq_of_toString? {text : Text} {word : String} (h : text.toString? = some word) :
    text = ofString word := by
  obtain ⟨chars, hchars, rfl⟩ := Option.map_eq_some_iff.mp h
  rw [ofString, String.toList_ofList]
  rw [chars?] at hchars
  split at hchars
  next hwf =>
    cases hchars
    exact eq_ofChars hwf
  next => cases hchars

theorem ofString_injective : Function.Injective ofString := by
  intro a b h
  have := congrArg toString? h
  rwa [toString?_ofString, toString?_ofString, Option.some.injEq] at this

end Text

/-! ### scalars with the tag of integers -/

theorem ScalarType.ofTag?_int {tag : String} (h : Tag.expand tag = Tag.coreName "int") :
    ScalarType.ofTag? (some tag) = some .int := by
  rw [ofTag?, h]
  decide

/-- A scalar that is typed as an integer is what its text is read as. -/
theorem Scalar.classify_of_int {text : Text} {plain : Bool} {tag : Option String}
    (h : literalType text plain tag = .int) :
    classify text plain tag
      = match literal? Literal.int text with
        | some n => .number (.int n)
        | none => .string text := by
  rw [classify, h, ofText?]
  cases literal? Literal.int text <;> rfl

theorem Scalar.literalType_of_tag {text : Text} {plain : Bool} {tag : String} {type : ScalarType}
    (h : ScalarType.ofTag? (some tag) = some type) : literalType text plain (some tag) = type := by
  simp [literalType, ScalarType.of, h]

/-- **What is read as an integer is a literal of that value, if it is neat.**  The text of a string
is read exactly if it is taken.  A text that is neat and no literal, or has a surrogate, is not
read, and a scalar of it with the tag of integers is a string. -/
theorem integers_read_are_literals (text : Text) :
    (∀ (word : String) (n : Int), text = Text.ofString word →
      (Literal.int word = .ok n ↔ Literal.Takes (Literal.bare word) n)
      ∧ (Literal.IsNeat (Literal.bare word) → Literal.int word = .ok n →
          ∃ s : IntSpelling, s.Of word ∧ s.digits ≠ [] ∧ s.value = n))
    ∧ ((∀ word : String, text = Text.ofString word → Literal.IsNeat (Literal.bare word)
          ∧ ∀ s : IntSpelling, s.Of word → s.digits = []) →
        (∀ word : String, text = Text.ofString word → ∃ e, Literal.int word = .error e)
        ∧ ∀ (plain : Bool) (tag : String), Tag.expand tag = Tag.coreName "int" →
          Scalar.classify text plain (some tag) = .string text) := by
  refine ⟨fun word n _ => ⟨Literal.int_ok_iff word n, Literal.exists_spelling_of_int⟩, ?_⟩
  intro hnone
  have herror : ∀ word : String, text = Text.ofString word → ∃ e, Literal.int word = .error e :=
    fun word hword => Literal.exists_error (hnone word hword).1 (hnone word hword).2
  refine ⟨herror, fun plain tag htag => ?_⟩
  have htype : Scalar.literalType text plain (some tag) = .int :=
    Scalar.literalType_of_tag (ScalarType.ofTag?_int htag)
  have hread : Scalar.literal? Literal.int text = none := by
    cases hword : text.toString? with
    | none => rw [Scalar.literal?, hword, Option.bind_none]
    | some word =>
      obtain ⟨e, he⟩ := herror word (Text.eq_of_toString? hword)
      rw [Scalar.literal?, hword, Option.bind_some, he]
      rfl
  rw [Scalar.classify_of_int htype, hread]

/-- The text `-0x1_f` is neat, and a literal for its value.  The text `0xZZ` is neat and no literal,
and a string with the tag of integers. -/
theorem integers_read_are_literals_hex :
    (∃ s : IntSpelling, s.Of "-0x1_f" ∧ s.digits ≠ [] ∧ s.value = -31)
    ∧ Scalar.classify (Text.ofString "0xZZ") true (some "!!int")
        = .string (Text.ofString "0xZZ") := by
  constructor
  · refine ((integers_read_are_literals (Text.ofString "-0x1_f")).1 "-0x1_f" (-31) rfl).2 ?_
      (by decide)
    have hbare : Literal.bare "-0x1_f" = Sign.minus.chars ++ (Radix.hex.mark ++ ['1', 'f']) := by
      decide
    rw [hbare]
    exact Literal.isNeat_marked nofun (List.all_iff_forall_prop.mp (by decide))
      (Numeral.isTight_of_forall (List.all_iff_forall_prop.mp (by decide)) (by simp))
  · refine ((integers_read_are_literals (Text.ofString "0xZZ")).2 fun word hword => ?_).2 true
      "!!int" (by decide)
    have hbare : Literal.bare "0xZZ" = Sign.none.chars ++ (Radix.hex.mark ++ ['Z', 'Z']) := by
      decide
    cases Text.ofString_injective hword
    rw [hbare]
    constructor
    · exact Literal.isNeat_marked nofun (List.all_iff_forall_prop.mp (by decide))
        (Numeral.isTight_of_forall (List.all_iff_forall_prop.mp (by decide)) (by simp))
    · exact fun s hof => absurd (s.hasDigit_of_hex hof hbare 'Z' (by decide)) (by decide)

/-- In `0x-5` there is a sign behind the mark, so it is no literal, but it is read as -5, also as a
scalar with the tag of integers. -/
theorem second_sign_is_read :
    Literal.int "0x-5" = .ok (-5) ∧ (∀ s : IntSpelling, ¬ s.Of "0x-5")
    ∧ Scalar.classify (Text.ofString "0x-5") true (some "!!int") = .number (.int (-5)) := by
  have hbare : Literal.bare "0x-5" = ['0', 'x', '-', '5'] := by decide
  refine ⟨by decide, fun s hof => ?_, by decide⟩
  exact absurd (s.hasDigit_of_hex hof hbare '-' (by decide)) (by decide)

end YamlSpan
