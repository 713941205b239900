import YamlSpan.Proofs.IntegerLiterals

/-!
# Plain integers

The spelling of a plain scalar shows an integer by the characters behind its sign and mark, with
separators among them, and a decimal integer may begin with zeros.  Each such spelling is a literal,
so it is read with the value of its digits, unless there are none or too many.

* `Scalar.digitOrMark`               the characters of plain integers, for each radix
* `Scalar.exists_spelling`           a plain integer is a literal
* `Scalar.classify_spelled_int`      the value of a plain integer
* `integer_literals_are_read`        literals are read with their value, with a tag and without
-/

namespace YamlSpan

namespace Scalar

/-! ### spellings -/

/-- The characters behind the mark of a radix in a plain integer. -/
def digitOrMark : Radix → Char → Bool
  | .binary => isBinaryOrMark
  | .octal => isOctalOrMark
  | .decimal => isDigitOrMark
  | .hex => isHexOrMark

theorem digitOrMark_lt {r : Radix} {c : Char} (h : digitOrMark r c = true) : c.toNat < 128 := by
  have hle : ∀ d : Char, d.toNat < 128 → c.val ≤ d.val → c.toNat < 128 := fun d hd hcd =>
    Nat.lt_of_le_of_lt (UInt32.le_iff_toNat_le.mp hcd) hd
  cases r with
  | binary =>
    simp only [digitOrMark, isBinaryOrMark, Bool.or_eq_true, beq_iff_eq] at h
    obtain (rfl | rfl) | rfl := h <;> decide
  | octal =>
    simp only [digitOrMark, isOctalOrMark, Bool.or_eq_true, Bool.and_eq_true, decide_eq_true_eq,
      beq_iff_eq] at h
    obtain ⟨-, h⟩ | rfl := h
    · exact hle '7' (by decide) h
    · decide
  | decimal =>
    simp only [digitOrMark, isDigitOrMark, Char.isDigit, Bool.or_eq_true, Bool.and_eq_true,
      decide_eq_true_eq, beq_iff_eq] at h
    obtain ⟨-, h⟩ | rfl := h
    · exact hle '9' (by decide) h
    · decide
  | hex =>
    simp only [digitOrMark, isHexOrMark, Char.isDigit, Bool.or_eq_true, Bool.and_eq_true,
      decide_eq_true_eq, beq_iff_eq] at h
    obtain ((⟨-, h⟩ | ⟨-, h⟩) | ⟨-, h⟩) | rfl := h
    · exact hle '9' (by decide) h
    · exact hle 'f' (by decide) h
    · exact hle 'F' (by decide) h
    · decide

/-- What is no separator is a digit. -/
theorem hasDigit_of_digitOrMark {r : Radix} {c : Char} (h : digitOrMark r c = true)
    (hc : c ≠ '_') : r.HasDigit c := by
  refine forall_ascii (P := fun c => digitOrMark r c = true → c ≠ '_' → r.HasDigit c) ?_
    (digitOrMark_lt h) h hc
  cases r <;> decide +kernel

theorem exists_sign (text : List Char) : ∃ s : Sign, text = s.chars ++ unsigned text := by
  cases text with
  | nil => exact ⟨.none, rfl⟩
  | cons c rest =>
    by_cases hplus : c = '+'
    · exact ⟨.plus, by simp [unsigned, hplus, Sign.chars]⟩
    · by_cases hminus : c = '-'
      · exact ⟨.minus, by simp [unsigned, hminus, Sign.chars]⟩
      · exact ⟨.none, by simp [unsigned, hplus, hminus, Sign.chars]⟩

/-- Characters behind a sign and a mark make up a literal. -/
theorem exists_spelling_of_run {text : String} {s : Sign} (r : Radix) {rest : List Char}
    (htext : text.toList = s.chars ++ (r.mark ++ rest)) (hrun : isRun (digitOrMark r) rest = true) :
    ∃ spelling : IntSpelling, spelling.Of text := by
  have hdigits : ∀ c ∈ rest.filter (· != '_'), r.HasDigit c := by
    intro c hc
    obtain ⟨hmem, hne⟩ := List.mem_filter.mp hc
    rw [isRun, Bool.and_eq_true, List.all_eq_true] at hrun
    exact hasDigit_of_digitOrMark (hrun.2 c hmem) (by simpa using hne)
  refine ⟨⟨s, r, rest.filter (· != '_'), hdigits⟩, ?_⟩
  rw [IntSpelling.Of, Literal.bare, htext, List.filter_append, List.filter_append]
  -- no separator is part of a sign or of a mark
  cases s <;> cases r <;> rfl

/-- What is spelled as an integer is a literal. -/
theorem exists_spelling {text : String} (h : isIntForm text.toList = true) :
    ∃ s : IntSpelling, s.Of text := by
  obtain ⟨s, hsign⟩ := exists_sign text.toList
  unfold isIntForm at h
  split at h
  · exact absurd h Bool.false_ne_true
  · rw [Bool.or_eq_true] at h
    obtain hdecimal | hmarked := h
    · exact exists_spelling_of_run .decimal hsign hdecimal
    · split at hmarked
      next rest hrest => exact exists_spelling_of_run .binary (hrest ▸ hsign) hmarked
      next rest hrest => exact exists_spelling_of_run .octal (hrest ▸ hsign) hmarked
      next rest hrest => exact exists_spelling_of_run .hex (hrest ▸ hsign) hmarked
      next => exact absurd hmarked Bool.false_ne_true

theorem isIntForm_of_plainType {text : List Char} (h : plainType text = .int)
    (hend : text.getLast? ≠ some '\n') : isIntForm text = true := by
  have hdrop : dropFinalBreak text = text := if_neg hend
  simp only [plainType, hdrop] at h
  split at h
  · cases h
  split at h
  · cases h
  split at h
  next hform => exact hform
  split at h <;> cases h

/-! ### plain scalars -/

theorem spelledType_ofString (word : String) :
    spelledType (Text.ofString word) = plainType word.toList := by
  simp [spelledType, Text.chars?, Text.ofString, Text.isWellFormed_ofChars, Text.chars_ofChars]

/-- A text with a surrogate is not spelled as an integer. -/
theorem exists_word {text : Text} (h : spelledType text = .int) :
    ∃ word : String, text = Text.ofString word := by
  cases hword : text.toString? with
  | none =>
    rw [spelledType, Option.map_eq_none_iff.mp hword] at h
    cases h
  | some word => exact ⟨word, Text.eq_of_toString? hword⟩

/-- No switch word is spelled as an integer. -/
theorem literalType_of_spelled {text : Text} (h : spelledType text = .int) :
    literalType text true none = .int := by
  have hspelled : ∀ word ∈ switchWords, spelledType (Text.ofString word) ≠ .int := by
    decide +kernel
  rw [literalType_eq, if_neg]
  · exact h
  · rintro ⟨-, -, hswitch⟩
    obtain ⟨word, hword, rfl⟩ := List.mem_map.mp hswitch
    exact hspelled word hword h

/-- The value of a scalar that is typed as an integer and is a literal. -/
theorem classify_of_spelling {word : String} {plain : Bool} {tag : Option String}
    (htype : literalType (Text.ofString word) plain tag = .int) (s : IntSpelling)
    (hs : s.Of word) :
    classify (Text.ofString word) plain tag
      = if s.IsReadable then .number (.int s.value) else .string (Text.ofString word) := by
  rw [classify_of_int htype, literal?_ofString, Literal.int_of_spelling s hs]
  by_cases hreadable : s.IsReadable
  · rw [if_pos hreadable, if_pos hreadable]
  · rw [if_neg hreadable, if_neg hreadable]

/-- **The value of a plain integer** is that of the literal that it is. -/
theorem classify_spelled_int {text : Text} (htype : ScalarType.of text true none = .int)
    (hend : text.getLast? ≠ some (.char '\n')) :
    ∃ word : String, text = Text.ofString word ∧ (∃ s : IntSpelling, s.Of word)
      ∧ ∀ s : IntSpelling, s.Of word →
        classify text true none
          = if s.IsReadable then .number (.int s.value) else .string text := by
  have hspelled : spelledType text = .int := htype
  obtain ⟨word, rfl⟩ := exists_word hspelled
  refine ⟨word, rfl, exists_spelling (isIntForm_of_plainType ?_ fun hlast => hend ?_), ?_⟩
  · rwa [← spelledType_ofString]
  · rw [Text.ofString, Text.ofChars, List.getLast?_map, hlast]
    rfl
  · exact fun s hs => classify_of_spelling (literalType_of_spelled hspelled) s hs

end Scalar

/-- **Integer literals are read with their value.**  A literal that has digits, and not too many
decimal ones, is read as the number of its digits, and so is a scalar of that text with the tag of
integers, plain or not.  A plain scalar without a tag that is spelled as an integer is a literal,
and it is the number of its digits, or a string if it has none or too many. -/
theorem integer_literals_are_read :
    (∀ (s : IntSpelling) (text : String), s.Of text → s.IsReadable →
      Literal.int text = .ok s.value
      ∧ ∀ (tag : String) (plain : Bool), Tag.expand tag = Tag.coreName "int" →
        Scalar.classify (Text.ofString text) plain (some tag) = .number (.int s.value))
    ∧ ∀ text : Text, ScalarType.of text true none = .int → text.getLast? ≠ some (.char '\n') →
      ∃ word : String, text = Text.ofString word ∧ (∃ s : IntSpelling, s.Of word)
        ∧ ∀ s : IntSpelling, s.Of word →
          Scalar.classify text true none
            = if s.IsReadable then .number (.int s.value) else .string text := by
  refine ⟨fun s text hs hreadable => ⟨?_, fun tag plain htag => ?_⟩,
    fun text htype hend => Scalar.classify_spelled_int htype hend⟩
  · rw [← Literal.toOption_eq_some_iff, Literal.int_of_spelling s hs, if_pos hreadable]
  · rw [Scalar.classify_of_spelling (Scalar.literalType_of_tag (ScalarType.ofTag?_int htag)) s hs,
      if_pos hreadable]

/-- The octal literal `0o1_7` is 15, with the tag of integers and as a plain scalar without one. -/
theorem integer_literals_are_read_octal :
    Scalar.classify (Text.ofString "0o1_7") false (some "!!int") = .number (.int 15)
    ∧ Scalar.classify (Text.ofString "0o1_7") true none = .number (.int 15) := by
  let s : IntSpelling := ⟨.none, .octal, ['1', '7'], List.all_iff_forall_prop.mp (by decide)⟩
  have hof : s.Of "0o1_7" := by
    show Literal.bare "0o1_7" = ['0', 'o', '1', '7']
    decide
  have hvalue : s.value = 15 := by decide
  have hreadable : s.IsReadable := by decide
  obtain ⟨word, hword, -, hplain⟩ :=
    integer_literals_are_read.2 (Text.ofString "0o1_7") (by decide) (by decide)
  cases Text.ofString_injective hword
  have htag : Tag.expand "!!int" = Tag.coreName "int" := by decide
  constructor
  · rw [← hvalue]
    exact (integer_literals_are_read.1 s "0o1_7" hof hreadable).2 "!!int" false htag
  · rw [hplain s hof, if_pos hreadable, hvalue]

end YamlSpan
