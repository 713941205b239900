import Mathlib.Data.Bool.AllAny
import Mathlib.Data.Nat.Digits.Defs
import Mathlib.Tactic.Ring
import YamlSpan.Numeral

/-!
# What a numeral is

Digits have their place among the figures `0` to `f`, and a row of digits has its positional value.
A numeral of a radix is read from the folded characters of a text: margins, a sign, the mark of the
radix in either case, digits and margins again, of which all but the digits may be missing.

* `Radix`             a base, with its mark and its digits
* `Sign`              the sign in front of a number
* `Numeral.Form`      the parts of a numeral
* `read_form`         the value of a numeral
* `read_eq_ok_iff`    what is read as a numeral
-/

namespace YamlSpan

inductive Radix where
  | binary
  | octal
  | decimal
  | hex
  deriving DecidableEq, Repr

/-- The sign in front of a number, which may be missing. -/
inductive Sign where
  | none
  | plus
  | minus
  deriving DecidableEq, Repr

/-! ### digits -/

namespace Radix

def base : Radix → Nat
  | binary => 2
  | octal => 8
  | decimal => 10
  | hex => 16

/-- The letter behind a zero that marks the digits of a radix. -/
def letter? : Radix → Option Char
  | binary => some 'b'
  | octal => some 'o'
  | decimal => none
  | hex => some 'x'

/-- What stands in front of the digits of a radix. -/
def mark (r : Radix) : List Char :=
  match r.letter? with
  | some letter => ['0', letter]
  | none => []

def figures : List Char :=
  ['0', '1', '2', '3', '4', '5', '6', '7', '8', '9', 'a', 'b', 'c', 'd', 'e', 'f']

/-- The value of a character as a digit, in either case; 16 for those that are none. -/
def digitValue (c : Char) : Nat := figures.idxOf c.toLower

def HasDigit (r : Radix) (c : Char) : Prop := digitValue c < r.base

instance (r : Radix) (c : Char) : Decidable (r.HasDigit c) :=
  inferInstanceAs (Decidable (_ < _))

/-- The positional value of digits, most significant first. -/
def valueOf (r : Radix) (digits : List Char) : Nat :=
  Nat.ofDigits r.base (digits.map digitValue).reverse

theorem baseLetter_eq (r : Radix) : Numeral.baseLetter r.base = r.letter? := by
  cases r <;> rfl

theorem base_eq_ten_iff (r : Radix) : r.base = 10 ↔ r = decimal := by
  cases r <;> decide

/-- The characters that are a digit in some radix. -/
def allDigits : List Char := figures ++ ['A', 'B', 'C', 'D', 'E', 'F']

end Radix

/-- What holds of the characters up to `U+007F` holds of each such character. -/
theorem forall_ascii {P : Char → Prop} (h : ∀ n < 128, P (Char.ofNat n)) {c : Char}
    (hc : c.toNat < 128) : P c := by
  have := h c.toNat hc
  rwa [Char.ofNat_toNat] at this

namespace Radix

theorem toLower_of_ge {c : Char} (hc : 128 ≤ c.toNat) : c.toLower = c := by
  refine dif_neg ?_
  rintro ⟨-, hle⟩
  have : c.toNat ≤ 'Z'.toNat := UInt32.le_iff_toNat_le.mp hle
  have : 'Z'.toNat < 128 := by decide
  omega

theorem digitValue_of_ge {c : Char} (hc : 128 ≤ c.toNat) : digitValue c = 16 := by
  rw [digitValue, toLower_of_ge hc]
  refine List.idxOf_eq_length fun hmem => ?_
  have hsmall : ∀ d ∈ figures, d.toNat < 128 := List.all_iff_forall_prop.mp (by decide)
  have := hsmall c hmem
  omega

theorem base_le (r : Radix) : r.base ≤ 16 := by cases r <;> decide

theorem digit?_eq (r : Radix) (c : Char) :
    Numeral.digit? r.base c = if r.HasDigit c then some (digitValue c) else none := by
  by_cases hc : c.toNat < 128
  · -- all bases at once: the value of each character is computed only once
    have hall : ∀ n < 128, ∀ r ∈ [binary, octal, decimal, hex],
        Numeral.digit? r.base (Char.ofNat n)
          = if r.HasDigit (Char.ofNat n) then some (digitValue (Char.ofNat n)) else none := by
      decide +kernel
    refine forall_ascii (P := fun c => Numeral.digit? r.base c
      = if r.HasDigit c then some (digitValue c) else none) ?_ hc
    exact fun n hn => hall n hn r (by cases r <;> decide)
  · have hrange : ∀ low high : Char, high.toNat < 128 →
        (decide (low.toNat ≤ c.toNat) && decide (c.toNat ≤ high.toNat)) = false := by
      intro low high hhigh
      rw [decide_eq_false (p := c.toNat ≤ high.toNat) (by omega), Bool.and_false]
    have hnone : ¬ r.HasDigit c := by
      have := r.base_le
      have := digitValue_of_ge (Nat.not_lt.mp hc)
      rw [HasDigit]
      omega
    rw [if_neg hnone, Numeral.digit?]
    simp only [hrange '0' '9' (by decide), hrange 'a' 'z' (by decide), hrange 'A' 'Z' (by decide),
      Bool.false_eq_true, if_false, Nat.lt_irrefl]

/-- A digit of some radix is one of the characters of `allDigits`. -/
theorem HasDigit.mem {r : Radix} {c : Char} (h : r.HasDigit c) : c ∈ allDigits := by
  have hvalue : digitValue c < 16 := Nat.lt_of_lt_of_le h r.base_le
  have hc : c.toNat < 128 := by
    refine Nat.lt_of_not_le fun hle => ?_
    rw [digitValue_of_ge hle] at hvalue
    omega
  refine forall_ascii (P := fun c => digitValue c < 16 → c ∈ allDigits) ?_ hc hvalue
  decide +kernel

/-- What holds of the characters of `allDigits` holds of each digit.  The test of the list is a
Boolean one, since a quantifier over characters is decided by going through all of them. -/
theorem HasDigit.holds {P : Char → Prop} [DecidablePred P] {r : Radix} {c : Char}
    (hc : r.HasDigit c) (h : allDigits.all (fun d => P d) = true) : P c :=
  List.all_iff_forall_prop.mp h c hc.mem

end Radix

namespace Numeral

/-! ### rows of digits -/

theorem valueFrom_eq (base acc : Nat) (digits : List Nat) :
    valueFrom base acc digits = acc * base ^ digits.length + Nat.ofDigits base digits.reverse := by
  induction digits generalizing acc with
  | nil => simp [valueFrom]
  | cons d rest ih =>
    rw [valueFrom, ih, List.length_cons, Nat.ofDigits_reverse_cons]
    ring

theorem value_eq (r : Radix) (digits : List Char) :
    value r.base (digits.map Radix.digitValue) = r.valueOf digits := by
  rw [value, valueFrom_eq, Nat.zero_mul, Nat.zero_add]
  rfl

theorem splitDigits_append {r : Radix} {digits rest : List Char}
    (hdigits : ∀ c ∈ digits, r.HasDigit c) (hrest : ∀ c ∈ rest.head?, ¬ r.HasDigit c) :
    splitDigits r.base (digits ++ rest) = (digits.map Radix.digitValue, rest) := by
  induction digits with
  | nil =>
    cases rest with
    | nil => rfl
    | cons c rest =>
      have hnone : ¬ r.HasDigit c := hrest c rfl
      simp [splitDigits, Radix.digit?_eq, hnone]
  | cons d digits ih =>
    have hd : r.HasDigit d := hdigits d List.mem_cons_self
    rw [List.cons_append, splitDigits, Radix.digit?_eq, if_pos hd,
      ih fun c hc => hdigits c (List.mem_cons_of_mem d hc)]
    rfl

theorem splitDigits_spec (r : Radix) (text : List Char) :
    ∃ digits, (∀ c ∈ digits, r.HasDigit c) ∧ text = digits ++ (splitDigits r.base text).2
      ∧ (splitDigits r.base text).1 = digits.map Radix.digitValue := by
  induction text with
  | nil => exact ⟨[], by simp, rfl, rfl⟩
  | cons c rest ih =>
    by_cases hc : r.HasDigit c
    · obtain ⟨digits, hdigits, hrest, hvalues⟩ := ih
      refine ⟨c :: digits, List.forall_mem_cons.mpr ⟨hc, hdigits⟩, ?_, ?_⟩
      · simpa [splitDigits, Radix.digit?_eq, hc] using hrest
      · simpa [splitDigits, Radix.digit?_eq, hc] using hvalues
    · exact ⟨[], by simp, by simp [splitDigits, Radix.digit?_eq, hc],
        by simp [splitDigits, Radix.digit?_eq, hc]⟩

end Numeral

/-! ### signs -/

namespace Sign

def chars : Sign → List Char
  | none => []
  | plus => ['+']
  | minus => ['-']

/-- A number with the sign in front of it. -/
def apply : Sign → Int → Int
  | minus, n => -n
  | _, n => n

def isMinus (s : Sign) : Bool := s == minus

theorem splitSign_append (s : Sign) {rest : List Char}
    (hrest : s = none → rest.head? ≠ some '+' ∧ rest.head? ≠ some '-') :
    Numeral.splitSign (s.chars ++ rest) = (s.isMinus, rest) := by
  cases s with
  | plus => rfl
  | minus => rfl
  | none =>
    obtain ⟨hplus, hminus⟩ := hrest rfl
    cases rest with
    | nil => rfl
    | cons c rest =>
      rw [chars, List.nil_append, Numeral.splitSign]
      · rfl
      · simpa using hminus
      · simpa using hplus

theorem splitSign_spec (text : List Char) :
    ∃ s : Sign, text = s.chars ++ (Numeral.splitSign text).2
      ∧ (Numeral.splitSign text).1 = s.isMinus := by
  fun_cases Numeral.splitSign text with
  | case1 rest => exact ⟨minus, rfl, rfl⟩
  | case2 rest => exact ⟨plus, rfl, rfl⟩
  | case3 => exact ⟨none, rfl, rfl⟩

theorem signed_eq (s : Sign) (n : Nat) : Numeral.signed s.isMinus n = s.apply n := by
  cases s <;> rfl

end Sign

/-! ### folding -/

theorem Text.decimalValue?_lt {c : Char} {v : Nat} (h : decimalValue? c = some v) : v < 10 := by
  rw [decimalValue?] at h
  split at h
  next hdigit =>
    have hle : c.toNat ≤ '9'.toNat := by
      rw [Char.isDigit, Bool.and_eq_true, decide_eq_true_eq, decide_eq_true_eq] at hdigit
      exact UInt32.le_iff_toNat_le.mp hdigit.2
    have hnine : '9'.toNat = 0x39 := rfl
    cases h
    omega
  · split at h
    · cases h
    · obtain ⟨z, hz, rfl⟩ := Option.map_eq_some_iff.mp h
      have hrange : z ≤ c.toNat ∧ c.toNat < z + 10 := by simpa using List.find?_some hz
      omega

/-- The margins beyond ASCII. -/
def Text.wideMargins : List Nat :=
  [0x85, 0xa0, 0x1680, 0x2000, 0x2001, 0x2002, 0x2003, 0x2004, 0x2005, 0x2006, 0x2007, 0x2008,
    0x2009, 0x200a, 0x2028, 0x2029, 0x202f, 0x205f, 0x3000]

/-- No margin beyond ASCII is a digit. -/
theorem Text.isDigit_of_margin {c : Char} (hmargin : isMargin c = true) (hc : 0x7f ≤ c.toNat) :
    isDigit c = false := by
  have hmem : c.toNat ∈ wideMargins := by
    simp only [isMargin, isBlank, Bool.and_eq_true, Bool.or_eq_true, decide_eq_true_eq,
      beq_iff_eq] at hmargin
    simp only [wideMargins, List.mem_cons, List.not_mem_nil, or_false]
    omega
  have hall : ∀ n ∈ wideMargins, isDigit (Char.ofNat n) = false := by decide +kernel
  have := hall c.toNat hmem
  rwa [Char.ofNat_toNat] at this

namespace Numeral

theorem fold_cases (c : Char) :
    (c.toNat < 0x7f ∧ fold c = c) ∨ (0x7f ≤ c.toNat ∧ Text.isMargin c = true ∧ fold c = ' ')
      ∨ (∃ v < 10, Text.decimalValue? c = some v ∧ fold c = Nat.digitChar v) ∨ fold c = '?' := by
  rw [fold]
  split
  next hlow => exact .inl ⟨hlow, rfl⟩
  next hhigh =>
    split
    next hmargin => exact .inr (.inl ⟨Nat.not_lt.mp hhigh, hmargin, rfl⟩)
    next =>
      split
      next v hv => exact .inr (.inr (.inl ⟨v, Text.decimalValue?_lt hv, hv, rfl⟩))
      next => exact .inr (.inr (.inr rfl))

/-- What is folded to a decimal digit is a digit. -/
theorem isDigit_of_fold {c : Char} (h : Radix.decimal.HasDigit (fold c)) :
    Text.isDigit c = true := by
  obtain ⟨hlow, hfold⟩ | ⟨-, -, hfold⟩ | ⟨v, -, hvalue, -⟩ | hfold := fold_cases c
  · rw [hfold] at h
    refine h.holds (P := fun c => Radix.decimal.HasDigit c → Text.isDigit c = true) ?_ h
    decide +kernel
  · rw [hfold] at h
    exact absurd h (by decide)
  · rw [Text.isDigit, hvalue]
    rfl
  · rw [hfold] at h
    exact absurd h (by decide)

/-- A digit is not folded to a margin or to a sign. -/
theorem fold_of_isDigit {c : Char} (h : Text.isDigit c = true) :
    Text.isMargin (fold c) = false ∧ fold c ≠ '+' ∧ fold c ≠ '-' := by
  obtain ⟨hlow, hfold⟩ | ⟨hhigh, hmargin, -⟩ | ⟨v, hv, -, hfold⟩ | hfold := fold_cases c
  · rw [hfold]
    refine forall_ascii (P := fun c => Text.isDigit c = true →
      Text.isMargin c = false ∧ c ≠ '+' ∧ c ≠ '-') ?_ (by omega) h
    decide +kernel
  · rw [Text.isDigit_of_margin hmargin hhigh] at h
    exact absurd h Bool.false_ne_true
  · have hall : ∀ v < 10, Text.isMargin (Nat.digitChar v) = false
        ∧ Nat.digitChar v ≠ '+' ∧ Nat.digitChar v ≠ '-' := by decide +kernel
    rw [hfold]
    exact hall v hv
  · rw [hfold]
    decide

/-- An ASCII character is folded to itself, if it may stand in a numeral at all. -/
theorem fold_of_ascii {c : Char} (hc : c.toNat < 0x80) (hfold : fold c ≠ '?') : fold c = c := by
  refine forall_ascii (P := fun c => fold c ≠ '?' → fold c = c) ?_ hc hfold
  decide +kernel

end Numeral

/-! ### numerals -/

namespace Radix

/-- A digit is no margin, no sign, and is folded to itself. -/
theorem HasDigit.apart {r : Radix} {c : Char} (h : r.HasDigit c) :
    Text.isMargin c = false ∧ c ≠ '+' ∧ c ≠ '-' ∧ c ≠ '?' ∧ Numeral.fold c = c := by
  refine h.holds (P := fun c => Text.isMargin c = false ∧ c ≠ '+' ∧ c ≠ '-' ∧ c ≠ '?'
    ∧ Numeral.fold c = c) ?_
  decide +kernel

/-- No digit of a radix is the letter of its mark. -/
theorem HasDigit.not_letter {r : Radix} {c : Char} (h : r.HasDigit c) :
    r.letter? ≠ some c.toLower := by
  refine h.holds (P := fun c => r.HasDigit c → r.letter? ≠ some c.toLower) ?_ h
  cases r <;> decide +kernel

theorem not_letter_of_margin (r : Radix) {c : Char} (h : Text.isMargin c = true) :
    r.letter? ≠ some c.toLower := by
  by_cases hc : c.toNat < 128
  · refine forall_ascii (P := fun c => Text.isMargin c = true → r.letter? ≠ some c.toLower)
      ?_ hc h
    cases r <;> decide +kernel
  · rw [toLower_of_ge (Nat.not_lt.mp hc)]
    intro hletter
    have hsmall : c.toNat < 128 := by cases r <;> cases hletter <;> decide
    exact hc hsmall

end Radix

namespace Numeral

/-- A text without the letter of the mark does not begin with the mark. -/
theorem dropBaseMark_of_not_letter {r : Radix} {text : List Char}
    (h : ∀ c ∈ text, r.letter? ≠ some c.toLower) : dropBaseMark r.base text = text := by
  fun_cases dropBaseMark r.base text with
  | case1 letter rest hletter =>
    rw [Radix.baseLetter_eq] at hletter
    exact absurd hletter (h letter (List.mem_cons_of_mem _ List.mem_cons_self))
  | case2 => rfl
  | case3 => rfl

theorem dropBaseMark_spec (r : Radix) (text : List Char) :
    ∃ mark, (mark = [] ∨ ∃ letter, mark = ['0', letter] ∧ r.letter? = some letter.toLower)
      ∧ text = mark ++ dropBaseMark r.base text := by
  fun_cases dropBaseMark r.base text with
  | case1 letter rest hletter =>
    rw [Radix.baseLetter_eq] at hletter
    exact ⟨['0', letter], .inr ⟨letter, rfl, hletter⟩, rfl⟩
  | case2 => exact ⟨[], .inl rfl, rfl⟩
  | case3 => exact ⟨[], .inl rfl, rfl⟩

/-- The parts of a numeral. -/
structure Form (r : Radix) where
  before : List Char
  sign : Sign
  mark : List Char
  digits : List Char
  after : List Char
  before_margin : ∀ c ∈ before, Text.isMargin c = true
  mark_valid : mark = [] ∨ ∃ letter, mark = ['0', letter] ∧ r.letter? = some letter.toLower
  digits_ne : digits ≠ []
  digits_valid : ∀ c ∈ digits, r.HasDigit c
  after_margin : ∀ c ∈ after, Text.isMargin c = true

namespace Form

variable {r : Radix} (f : Form r)

/-- The numeral behind its sign. -/
def unsigned : List Char := f.mark ++ (f.digits ++ f.after)

def chars : List Char := f.before ++ (f.sign.chars ++ f.unsigned)

def value : Int := f.sign.apply (r.valueOf f.digits)

/-- Behind the sign, a zero or a digit comes first. -/
theorem head_unsigned :
    ∃ c, f.unsigned.head? = some c ∧ Text.isMargin c = false ∧ c ≠ '+' ∧ c ≠ '-' := by
  obtain hmark | ⟨letter, hmark, -⟩ := f.mark_valid
  · obtain ⟨d, more, hdigits⟩ := List.exists_cons_of_ne_nil f.digits_ne
    obtain ⟨hmargin, hplus, hminus, -⟩ :=
      (f.digits_valid d (hdigits ▸ List.mem_cons_self)).apart
    exact ⟨d, by simp [unsigned, hmark, hdigits], hmargin, hplus, hminus⟩
  · exact ⟨'0', by simp [unsigned, hmark], by decide⟩

theorem splitSign_eq : splitSign (f.sign.chars ++ f.unsigned) = (f.sign.isMinus, f.unsigned) := by
  obtain ⟨c, hhead, -, hplus, hminus⟩ := f.head_unsigned
  refine Sign.splitSign_append f.sign fun _ => ?_
  simp [hhead, hplus, hminus]

theorem dropWhile_eq : f.chars.dropWhile Text.isMargin = f.sign.chars ++ f.unsigned := by
  have hhead : ∃ c, (f.sign.chars ++ f.unsigned).head? = some c ∧ Text.isMargin c = false := by
    obtain ⟨c, hhead, hmargin, -⟩ := f.head_unsigned
    cases hsign : f.sign with
    | none => exact ⟨c, hhead, hmargin⟩
    | plus => exact ⟨'+', rfl, by decide⟩
    | minus => exact ⟨'-', rfl, by decide⟩
  obtain ⟨c, hc, hmargin⟩ := hhead
  rw [chars, List.dropWhile_append_of_pos f.before_margin]
  obtain ⟨rest, hrest⟩ := List.head?_eq_some_iff.mp hc
  rw [hrest, List.dropWhile_cons_of_neg]
  simp [hmargin]

theorem dropBaseMark_digits : dropBaseMark r.base (f.digits ++ f.after) = f.digits ++ f.after := by
  refine dropBaseMark_of_not_letter fun c hc => ?_
  obtain hdigit | hmargin := List.mem_append.mp hc
  · exact (f.digits_valid c hdigit).not_letter
  · exact r.not_letter_of_margin (f.after_margin c hmargin)

theorem dropBaseMark_eq : dropBaseMark r.base f.unsigned = f.digits ++ f.after := by
  obtain hmark | ⟨letter, hmark, hletter⟩ := f.mark_valid
  · rw [unsigned, hmark, List.nil_append, dropBaseMark_digits]
  · rw [unsigned, hmark, List.cons_append, List.cons_append, dropBaseMark, Radix.baseLetter_eq,
      if_pos hletter, List.nil_append]

theorem splitDigits_eq :
    splitDigits r.base (f.digits ++ f.after) = (f.digits.map Radix.digitValue, f.after) := by
  refine splitDigits_append f.digits_valid fun c hc hdigit => ?_
  have hmargin := f.after_margin c (List.mem_of_mem_head? hc)
  rw [hdigit.apart.1] at hmargin
  exact Bool.false_ne_true hmargin

/-- No part of a numeral has the character that others are folded to. -/
theorem not_mem : '?' ∉ f.chars := by
  have hmargin : Text.isMargin '?' ≠ true := by decide
  have hsign : '?' ∉ f.sign.chars := by cases f.sign <;> decide
  have hmark : '?' ∉ f.mark := by
    obtain hmark | ⟨letter, hmark, hletter⟩ := f.mark_valid
    · simp [hmark]
    · have hnone : r.letter? ≠ some ('?').toLower := by cases r <;> decide
      rw [hmark]
      intro hmem
      obtain hzero | hsame : '?' = '0' ∨ '?' = letter := by simpa using hmem
      · exact absurd hzero (by decide)
      · exact hnone (hsame ▸ hletter)
  simp only [chars, unsigned, List.mem_append, not_or]
  exact ⟨fun h => hmargin (f.before_margin _ h), hsign, hmark,
    fun h => (f.digits_valid _ h).apart.2.2.2.1 rfl, fun h => hmargin (f.after_margin _ h)⟩

/-- Digits alone are a numeral. -/
def ofDigits {digits : List Char} (hne : digits ≠ []) (hdigits : ∀ c ∈ digits, r.HasDigit c) :
    Form r where
  before := []
  sign := .none
  mark := []
  digits := digits
  after := []
  before_margin := by simp
  mark_valid := .inl rfl
  digits_ne := hne
  digits_valid := hdigits
  after_margin := by simp

theorem chars_ofDigits {digits : List Char} (hne : digits ≠ [])
    (hdigits : ∀ c ∈ digits, r.HasDigit c) : (ofDigits hne hdigits).chars = digits := by
  simp [ofDigits, chars, unsigned, Sign.chars]

theorem value_ofDigits {digits : List Char} (hne : digits ≠ [])
    (hdigits : ∀ c ∈ digits, r.HasDigit c) : (ofDigits hne hdigits).value = r.valueOf digits := rfl

end Form

/-- A text begins with no margin, sign or mark and ends with no margin. -/
structure IsTight (r : Radix) (text : List Char) : Prop where
  head : ∀ c ∈ text.head?, Text.isMargin c = false ∧ c ≠ '+' ∧ c ≠ '-'
  mark : ∀ letter more, text = '0' :: letter :: more → r.letter? ≠ some letter.toLower
  last : ∀ c ∈ text.getLast?, Text.isMargin c = false

theorem isTight_of_forall {r : Radix} {text : List Char}
    (h : ∀ c ∈ text, Text.isMargin c = false ∧ c ≠ '+' ∧ c ≠ '-')
    (hmark : ∀ letter more, text = '0' :: letter :: more → r.letter? ≠ some letter.toLower) :
    IsTight r text where
  head c hc := h c (List.mem_of_mem_head? hc)
  mark := hmark
  last c hc := (h c (List.mem_of_getLast? hc)).1

/-- A tight numeral has no parts other than its digits. -/
theorem Form.of_isTight {r : Radix} (f : Form r) (h : IsTight r f.chars) :
    f.sign = .none ∧ f.chars = f.digits := by
  have hbefore : f.before = [] := by
    refine List.eq_nil_iff_forall_not_mem.mpr fun c hc => ?_
    obtain ⟨d, more, hd⟩ := List.exists_cons_of_ne_nil (List.ne_nil_of_mem hc)
    have hmargin := f.before_margin d (hd ▸ List.mem_cons_self)
    rw [(h.head d (by simp [chars, hd])).1] at hmargin
    exact Bool.false_ne_true hmargin
  have hsign : f.sign = .none := by
    cases hs : f.sign with
    | none => rfl
    | plus => exact absurd rfl (h.head '+' (by simp [chars, hbefore, hs, Sign.chars])).2.1
    | minus => exact absurd rfl (h.head '-' (by simp [chars, hbefore, hs, Sign.chars])).2.2
  have hmark : f.mark = [] := by
    obtain hmark | ⟨letter, hmark, hletter⟩ := f.mark_valid
    · exact hmark
    · refine absurd hletter (h.mark letter (f.digits ++ f.after) ?_)
      simp [chars, unsigned, hbefore, hsign, hmark, Sign.chars]
  have hafter : f.after = [] := by
    refine List.getLast?_eq_none_iff.mp ?_
    cases hlast : f.after.getLast? with
    | none => rfl
    | some c =>
      have hmargin := f.after_margin c (List.mem_of_getLast? hlast)
      rw [h.last c (by simp [chars, unsigned, hlast])] at hmargin
      exact absurd hmargin Bool.false_ne_true
  exact ⟨hsign, by simp [chars, unsigned, hbefore, hsign, hmark, hafter, Sign.chars]⟩

/-- **The value of a numeral**, unless it has too many decimal digits. -/
theorem read_form {r : Radix} {text : List Char} (f : Form r) (h : text.map fold = f.chars) :
    read r.base text = if r = .decimal ∧ digitLimit < f.digits.length
      then .error (.tooLong f.digits.length) else .ok f.value := by
  have hdigits : (f.digits.map Radix.digitValue).isEmpty = false := by
    simp [f.digits_ne]
  have hafter : f.after.all Text.isMargin = true := List.all_eq_true.mpr f.after_margin
  simp only [read, h, f.dropWhile_eq, f.splitSign_eq, f.dropBaseMark_eq, f.splitDigits_eq,
    List.length_map, Radix.base_eq_ten_iff, hdigits, hafter, value_eq, Sign.signed_eq]
  rfl

/-- The value of a row of digits, if there is one and there are not too many decimal ones. -/
theorem read_digits {r : Radix} {digits : List Char} (hdigits : ∀ c ∈ digits, r.HasDigit c) :
    (read r.base digits).toOption
      = if digits ≠ [] ∧ (r = .decimal → digits.length ≤ digitLimit)
        then some (r.valueOf digits : Int) else none := by
  by_cases hne : digits = []
  · subst hne
    rw [if_neg (by simp)]
    cases r <;> rfl
  · have hfold : digits.map fold = (Form.ofDigits hne hdigits).chars := by
      rw [Form.chars_ofDigits, List.map_congr_left fun c hc => (hdigits c hc).apart.2.2.2.2,
        List.map_id']
    rw [read_form _ hfold, Form.value_ofDigits]
    show (if r = .decimal ∧ digitLimit < digits.length then _ else _
      : Except Error Int).toOption = _
    by_cases hlimit : r = .decimal ∧ digitLimit < digits.length
    · rw [if_pos hlimit, if_neg]
      · rfl
      · exact fun h => Nat.not_le.mpr hlimit.2 (h.2 hlimit.1)
    · rw [if_neg hlimit, if_pos]
      · rfl
      · exact ⟨hne, fun hr => Nat.not_lt.mp fun hlt => hlimit ⟨hr, hlt⟩⟩

/-- What is read is a numeral. -/
theorem exists_form_of_read {r : Radix} {text : List Char} {n : Int}
    (h : read r.base text = .ok n) : ∃ f : Form r, text.map fold = f.chars := by
  obtain ⟨sign, hsign, -⟩ := Sign.splitSign_spec ((text.map fold).dropWhile Text.isMargin)
  obtain ⟨mark, hmark, hunsigned⟩ :=
    dropBaseMark_spec r (splitSign ((text.map fold).dropWhile Text.isMargin)).2
  obtain ⟨digits, hdigits, hrest, hvalues⟩ := splitDigits_spec r
    (dropBaseMark r.base (splitSign ((text.map fold).dropWhile Text.isMargin)).2)
  rw [read] at h
  simp only [hvalues] at h
  split at h
  · simp at h
  split at h
  · simp at h
  next hread =>
    obtain ⟨hne, hafter⟩ : digits ≠ [] ∧ ∀ c ∈ (splitDigits r.base (dropBaseMark r.base
        (splitSign ((text.map fold).dropWhile Text.isMargin)).2)).2, Text.isMargin c = true := by
      simpa using hread
    refine ⟨⟨(text.map fold).takeWhile Text.isMargin, sign, mark, digits, _, ?_, hmark, hne,
      hdigits, hafter⟩, ?_⟩
    · exact List.all_eq_true.mp List.all_takeWhile
    · rw [Form.chars, Form.unsigned]
      simp only
      rw [← hrest, ← hunsigned, ← hsign, List.takeWhile_append_dropWhile]

/-- **What is read as a numeral.** -/
theorem read_eq_ok_iff (r : Radix) (text : List Char) (n : Int) :
    read r.base text = .ok n ↔
      ∃ f : Form r, text.map fold = f.chars ∧ (r = .decimal → f.digits.length ≤ digitLimit)
        ∧ f.value = n := by
  constructor
  · intro h
    obtain ⟨f, hf⟩ := exists_form_of_read h
    rw [read_form f hf] at h
    split at h
    · simp at h
    next hlimit =>
      refine ⟨f, hf, fun hr => ?_, Except.ok.inj h⟩
      exact Nat.not_lt.mp fun hlt => hlimit ⟨hr, hlt⟩
  · rintro ⟨f, hf, hlimit, rfl⟩
    rw [read_form f hf, if_neg]
    rintro ⟨hr, hlt⟩
    exact Nat.not_lt.mpr (hlimit hr) hlt

end Numeral

end YamlSpan
