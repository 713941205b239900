import Mathlib.Data.List.TakeWhile
import YamlSpan.Position
import YamlSpan.Proofs.Readers

/-!
# Lines in a text that goes on

A text ends with a line and another one follows, which begins with a marker.  A cursor in front of
the end of the first text sees the same in both of them, as far as it looks: no class of characters
that lies inside of a line leads over the line end at the very end.

* `Continues`           a text that ends with a line, and one behind it that begins with a marker
* `Cursor.extend`       the same place in the text that goes on
* `Cursor.Inside`       the places in front of the end
* `Inside.skipWhile`    moving over a class of characters that lies inside of a line
* `lineBreak_extend`    moving over the end of a line, which may lead to the end of the text
* `Within.skipGap`      moving over blanks, comments and empty lines
-/

namespace YamlSpan

/-- A text, and one that goes on behind it: the first ends with a line, the second begins with the
marker of a document. -/
structure Continues (front back : List Char) : Prop where
  lines : ∀ ch, front.getLast? = some ch → isLineEnd (.char ch) = true
  readable : Cursor.finis ∉ front
  marker : (Cursor.start back).isTriple '-' = true

theorem Continues.cons {front back : List Char} (h : Continues front back) :
    ∃ more, back = '-' :: more := by
  have hpeek : (Cursor.start back).peek 0 = '-' := by
    have hmarker := h.marker
    unfold Cursor.isTriple at hmarker
    simp only [Bool.and_eq_true, beq_iff_eq] at hmarker
    exact hmarker.1.1.1
  cases back with
  | nil => exact absurd hpeek (by decide)
  | cons ch more =>
    obtain rfl : ch = '-' := hpeek
    exact ⟨more, rfl⟩

namespace Cursor

/-- The cursor in a text that goes on. -/
def extend (c : Cursor) (back : List Char) : Cursor := ⟨c.rest ++ back, c.mark⟩

@[simp] theorem extend_mark (c : Cursor) (back : List Char) : (c.extend back).mark = c.mark := rfl

/-- The cursors of a text. -/
inductive Within (front : List Char) : Cursor → Prop where
  | start : Within front (.start front)
  | advance {c : Cursor} (h : Within front c) : Within front c.advance

/-- The cursors in front of the end of a text. -/
structure Inside (front : List Char) (c : Cursor) : Prop where
  within : c.Within front
  ne_nil : c.rest ≠ []

theorem peek_of_cons {c : Cursor} {ch : Char} {rest : List Char} (h : c.rest = ch :: rest) :
    c.peek 0 = ch := by
  rw [peek, h]
  rfl

/-- The place behind the end of a text. -/
def last (c : Cursor) : Mark := (c.forward c.rest.length).mark

theorem last_advance (c : Cursor) : c.advance.last = c.last := by
  obtain ⟨rest, mark⟩ := c
  cases rest <;> rfl

section
variable {front : List Char} {c : Cursor}

theorem Within.forward (h : c.Within front) (count : Nat) : (c.forward count).Within front := by
  induction count generalizing c with
  | zero => exact h
  | succ count ih => exact ih h.advance

theorem Within.suffix (h : c.Within front) : c.rest <:+ front := by
  induction h with
  | start => exact List.suffix_rfl
  | advance _ ih => exact (advance_suffix _).trans ih

theorem Within.last (h : c.Within front) : c.last = (Cursor.start front).last := by
  induction h with
  | start => rfl
  | advance _ ih => exact (last_advance _).trans ih

theorem after_index (m : Mark) (ch : Char) (next : Option Char) :
    (m.after ch next).index = m.index + 1 := by
  unfold Mark.after
  split
  · rfl
  · split <;> rfl

theorem le_after_line (m : Mark) (ch : Char) (next : Option Char) :
    m.line ≤ (m.after ch next).line := by
  unfold Mark.after
  split
  · exact Nat.le_succ _
  · split <;> exact Nat.le_refl _

theorem after_lineEnd (m : Mark) {ch : Char} (h : isLineEnd (.char ch) = true) :
    m.after ch none = ⟨m.index + 1, m.line + 1, 0⟩ := by
  rw [isLineEnd, Bool.or_eq_true, beq_iff_eq, beq_iff_eq, CodePoint.char.injEq,
    CodePoint.char.injEq] at h
  rcases h with rfl | rfl <;> rfl

theorem Within.index (h : c.Within front) : c.mark.index + c.rest.length = front.length := by
  induction h with
  | start => exact Nat.zero_add _
  | @advance c _ ih =>
    obtain ⟨rest, mark⟩ := c
    cases rest with
    | nil => exact ih
    | cons ch rest =>
      show (mark.after ch rest.head?).index + rest.length = front.length
      have hcons : mark.index + (rest.length + 1) = front.length := ih
      rw [after_index]
      omega

theorem Within.index_le (h : c.Within front) : c.mark.index ≤ front.length := by
  have hindex := h.index
  omega

/-- The last line of a text ends behind every other place. -/
theorem last_of_lineEnd (hne : c.rest ≠ [])
    (hend : ∀ ch, c.rest.getLast? = some ch → isLineEnd (.char ch) = true) :
    c.mark.line < c.last.line ∧ c.last.column = 0 := by
  obtain ⟨rest, mark⟩ := c
  induction rest generalizing mark with
  | nil => exact absurd rfl hne
  | cons ch rest ih =>
    rw [← last_advance]
    cases rest with
    | nil =>
      have hafter := after_lineEnd mark (hend ch rfl)
      show mark.line < (mark.after ch none).line ∧ (mark.after ch none).column = 0
      rw [hafter]
      exact ⟨Nat.lt_succ_self _, rfl⟩
    | cons next rest =>
      obtain ⟨hline, hcolumn⟩ := ih (mark.after ch (some next)) (List.cons_ne_nil _ _) hend
      exact ⟨Nat.lt_of_le_of_lt (le_after_line mark ch _) hline, hcolumn⟩

end

/-! ### moving in a text that goes on -/

section
variable {front back : List Char} (h : Continues front back) {c : Cursor}
include h

theorem Within.lineEnd (hc : c.Within front) {ch : Char} (hlast : c.rest.getLast? = some ch) :
    isLineEnd (.char ch) = true := by
  obtain ⟨before, hfront⟩ := hc.suffix
  apply h.lines
  rw [← hfront, List.getLast?_append, hlast]
  rfl

theorem Inside.line (hc : c.Inside front) : c.mark.line < (Cursor.start front).last.line := by
  rw [← hc.within.last]
  exact (last_of_lineEnd hc.ne_nil fun _ => hc.within.lineEnd h).1

theorem last_column : (Cursor.start front).last.column = 0 := by
  by_cases hne : front = []
  · rw [hne]
    rfl
  · exact (last_of_lineEnd (c := .start front) hne h.lines).2

omit h in
/-- At the end of a text nothing is left but its last place. -/
theorem Within.mark_eq (hc : c.Within front) (hnil : c.rest = []) :
    c.mark = (Cursor.start front).last := by
  rw [← hc.last, Cursor.last, hnil]
  rfl

/-- In front of a line end, or of the end of the text, the next character is the same. -/
theorem advance_extend (hc : c.rest ≠ []) : (c.extend back).advance = c.advance.extend back := by
  obtain ⟨more, rfl⟩ := h.cons
  obtain ⟨rest, mark⟩ := c
  cases rest with
  | nil => exact absurd rfl hc
  | cons ch rest =>
    cases rest with
    | nil =>
      show (⟨_, mark.after ch (some '-')⟩ : Cursor) = ⟨_, mark.after ch none⟩
      rfl
    | cons next rest => rfl

theorem forward_extend {count : Nat} (hcount : count ≤ c.rest.length) :
    (c.extend back).forward count = (c.forward count).extend back := by
  induction count generalizing c with
  | zero => rfl
  | succ count ih =>
    have hc : c.rest ≠ [] := List.ne_nil_of_length_pos (by omega)
    rw [forward, advance_extend h hc, ih, forward]
    rw [advance_rest, List.length_tail]
    omega

omit h in
theorem peek_extend {k : Nat} (hk : k < c.rest.length) : (c.extend back).peek k = c.peek k := by
  rw [peek, peek, List.getD_eq_getElem?_getD, List.getD_eq_getElem?_getD, extend,
    List.getElem?_append_left hk]

end

/-! ### classes of characters inside of a line -/

/-- A class without the characters that end a line. -/
def InLine (p : Char → Bool) : Prop := p '\n' = false ∧ p '\r' = false

instance (p : Char → Bool) : Decidable (InLine p) := inferInstanceAs (Decidable (_ ∧ _))

theorem InLine.eq_false {p : Char → Bool} (hp : InLine p) {ch : Char}
    (h : isLineEnd (.char ch) = true) : p ch = false := by
  rw [isLineEnd, Bool.or_eq_true, beq_iff_eq, beq_iff_eq, CodePoint.char.injEq,
    CodePoint.char.injEq] at h
  rcases h with rfl | rfl
  · exact hp.1
  · exact hp.2

theorem skipWhile_eq_forward (p : Char → Bool) (c : Cursor) :
    c.skipWhile p = c.forward (c.run p).length := by
  obtain ⟨rest, mark⟩ := c
  show skipFrom p rest mark = forward (rest.takeWhile p).length ⟨rest, mark⟩
  induction rest generalizing mark with
  | nil => rfl
  | cons ch rest ih =>
    rw [skipFrom, List.takeWhile_cons]
    split
    · exact ih _
    · rfl

/-- Moving over a class stops at a character outside of it. -/
theorem peek_forward_run {p : Char → Bool} {c : Cursor}
    (hne : (c.forward (c.run p).length).rest ≠ []) :
    p ((c.forward (c.run p).length).peek 0) = false := by
  obtain ⟨ch, rest, hcons⟩ := List.exists_cons_of_ne_nil hne
  rw [peek_of_cons hcons]
  rw [← skipWhile_eq_forward, skipWhile_rest] at hcons
  have hhead := List.head_dropWhile_not p (hcons ▸ List.cons_ne_nil _ _)
  simpa only [hcons, List.head_cons] using hhead

theorem run_length_le (p : Char → Bool) (c : Cursor) : (c.run p).length ≤ c.rest.length :=
  (List.takeWhile_prefix p).length_le

section
variable {front back : List Char} (h : Continues front back) {c : Cursor} {p : Char → Bool}
include h

/-- A character inside of a line is not the last one. -/
theorem Inside.advance (hc : c.Inside front) (hp : InLine p) (hpeek : p (c.peek 0) = true) :
    c.advance.Inside front := by
  refine ⟨hc.within.advance, fun hnil => ?_⟩
  obtain ⟨ch, rest, hcons⟩ := List.exists_cons_of_ne_nil hc.ne_nil
  rw [advance_rest, hcons, List.tail_cons] at hnil
  have hend : isLineEnd (.char ch) = true := hc.within.lineEnd h (by rw [hcons, hnil]; rfl)
  rw [peek_of_cons hcons] at hpeek
  exact Bool.false_ne_true ((hp.eq_false hend).symm.trans hpeek)

theorem Inside.dropWhile_ne_nil (hc : c.Inside front) (hp : InLine p) :
    c.rest.dropWhile p ≠ [] := by
  intro hnil
  have hall := List.dropWhile_eq_nil_iff.mp hnil
  have hlast := hc.within.lineEnd h (List.getLast?_eq_some_getLast hc.ne_nil)
  have htrue := hall _ (List.getLast_mem hc.ne_nil)
  exact Bool.false_ne_true ((hp.eq_false hlast).symm.trans htrue)

theorem Inside.run (hc : c.Inside front) (hp : InLine p) : (c.extend back).run p = c.run p := by
  rw [Cursor.run, Cursor.run, extend, List.takeWhile_append, if_neg]
  intro hlength
  apply hc.dropWhile_ne_nil h hp
  rw [← List.length_eq_zero_iff]
  have hsplit := congrArg List.length (List.takeWhile_append_dropWhile (p := p) (l := c.rest))
  rw [List.length_append] at hsplit
  omega

/-- Moving over a class inside of a line stops in front of the end. -/
theorem Inside.forward_run (hc : c.Inside front) (hp : InLine p) :
    (c.forward (c.run p).length).Inside front := by
  refine ⟨hc.within.forward _, ?_⟩
  rw [← skipWhile_eq_forward, skipWhile_rest]
  exact hc.dropWhile_ne_nil h hp

theorem forward_run_extend :
    (c.extend back).forward (c.run p).length = (c.forward (c.run p).length).extend back :=
  forward_extend h (run_length_le p c)

theorem Inside.skipWhile (hc : c.Inside front) (hp : InLine p) :
    (c.extend back).skipWhile p = (c.skipWhile p).extend back ∧ (c.skipWhile p).Inside front := by
  rw [skipWhile_eq_forward, skipWhile_eq_forward, hc.run h hp, forward_run_extend h]
  exact ⟨rfl, hc.forward_run h hp⟩

end

/-! ### the ends of lines -/

/-- A line break that is not the pair of two characters. -/
theorem lineBreak_of_cons {c : Cursor} {ch : Char} {rest : List Char} (hcons : c.rest = ch :: rest)
    (hpair : ¬ (ch = '\r' ∧ rest.head? = some '\n')) :
    c.lineBreak = if ch == '\n' || ch == '\r' || ch == '\u0085' then (['\n'], c.advance)
      else if isBreak ch then ([ch], c.advance) else ([], c) := by
  unfold lineBreak
  split
  · rename_i heq
    rw [hcons] at heq
    obtain ⟨rfl, rfl⟩ := List.cons.inj heq
    exact absurd ⟨rfl, rfl⟩ hpair
  · rename_i heq
    rw [hcons] at heq
    obtain ⟨rfl, -⟩ := List.cons.inj heq
    rfl
  · rename_i heq
    rw [hcons] at heq
    cases heq

/-- There is no line break, or moving over it moves over something. -/
theorem lineBreak_cases (c : Cursor) :
    (isBreak (c.peek 0) = false ∧ c.lineBreak = ([], c))
      ∨ ∃ text count, (c.rest.take count).all isBreak = true ∧ text ≠ [] ∧ 0 < count
        ∧ count ≤ c.rest.length ∧ c.lineBreak = (text, c.forward count) := by
  unfold lineBreak
  split
  · rename_i heq
    refine .inr ⟨_, 2, ?_, List.cons_ne_nil _ _, Nat.two_pos, ?_, rfl⟩
    · rw [heq]
      rfl
    · rw [heq, List.length_cons, List.length_cons]
      omega
  · rename_i ch rest _ heq
    have hpeek : c.peek 0 = ch := peek_of_cons heq
    have hlength : 1 ≤ c.rest.length := by
      rw [heq]
      exact Nat.succ_pos _
    have hone : isBreak ch = true → (c.rest.take 1).all isBreak = true := by
      intro hbreak
      rw [heq, List.take_succ_cons, List.take_zero, List.all_cons, hbreak]
      rfl
    rw [hpeek]
    split
    · rename_i hfeed
      have hbreak : isBreak ch = true := by
        unfold isBreak
        rw [hfeed]
        rfl
      exact .inr ⟨_, 1, hone hbreak, List.cons_ne_nil _ _, Nat.one_pos, hlength, rfl⟩
    · split
      · rename_i hbreak
        exact .inr ⟨_, 1, hone hbreak, List.cons_ne_nil _ _, Nat.one_pos, hlength, rfl⟩
      · rename_i hbreak
        exact .inl ⟨Bool.eq_false_iff.mpr hbreak, rfl⟩
  · rename_i heq
    refine .inl ⟨?_, rfl⟩
    rw [peek, heq]
    rfl

theorem Within.lineBreak {front : List Char} {c : Cursor} (hc : c.Within front) :
    c.lineBreak.2.Within front := by
  rcases c.lineBreak_cases with ⟨-, heq⟩ | ⟨text, count, -, -, -, -, heq⟩
  · rw [heq]
    exact hc
  · rw [heq]
    exact hc.forward count

theorem lineBreak_length {c : Cursor} (hbreak : c.lineBreak.1 ≠ []) :
    c.lineBreak.2.rest.length < c.rest.length := by
  rcases c.lineBreak_cases with ⟨-, heq⟩ | ⟨text, count, -, -, hpos, hle, heq⟩
  · rw [heq] at hbreak
    exact absurd rfl hbreak
  · rw [heq, forward_rest, List.length_drop]
    omega

section
variable {front back : List Char} (h : Continues front back) {c : Cursor}
include h

theorem lineBreak_extend :
    (c.extend back).lineBreak = (c.lineBreak.1, c.lineBreak.2.extend back) := by
  obtain ⟨more, hback⟩ := h.cons
  obtain ⟨rest, mark⟩ := c
  cases rest with
  | nil =>
    rw [hback]
    rfl
  | cons ch rest =>
    by_cases hpair : ch = '\r' ∧ rest.head? = some '\n'
    · obtain ⟨rfl, hhead⟩ := hpair
      cases rest with
      | nil => cases hhead
      | cons next rest =>
        obtain rfl : next = '\n' := Option.some.inj hhead
        rfl
    · have hpair' : ¬ (ch = '\r' ∧ (rest ++ back).head? = some '\n') := by
        rintro ⟨hch, hhead⟩
        cases rest with
        | nil =>
          rw [hback] at hhead
          cases hhead
        | cons next rest => exact hpair ⟨hch, hhead⟩
      have hadvance : (Cursor.extend ⟨ch :: rest, mark⟩ back).advance
          = (Cursor.advance ⟨ch :: rest, mark⟩).extend back :=
        advance_extend h (List.cons_ne_nil _ _)
      rw [lineBreak_of_cons (c := ⟨ch :: rest, mark⟩) rfl hpair,
        lineBreak_of_cons (c := Cursor.extend ⟨ch :: rest, mark⟩ back) rfl hpair', hadvance]
      split
      · rfl
      · split <;> rfl

end

/-! ### looking ahead -/

section
variable {front back : List Char} {c : Cursor}

theorem forward_succ (count : Nat) (c : Cursor) :
    c.forward (count + 1) = (c.forward count).advance := by
  induction count generalizing c with
  | zero => rfl
  | succ count ih => exact ih c.advance

theorem peek_forward (k : Nat) (c : Cursor) : (c.forward k).peek 0 = c.peek k := by
  rw [peek, peek, forward_rest, List.getD_eq_getElem?_getD, List.getD_eq_getElem?_getD,
    List.getElem?_drop, Nat.add_zero]

theorem peek_of_nil (hnil : c.rest = []) (k : Nat) : c.peek k = finis := by
  rw [Cursor.peek, hnil]
  rfl

theorem ne_nil_of_peek {k : Nat} {ch : Char} (hpeek : c.peek k = ch) (hne : ch ≠ finis) :
    c.rest ≠ [] := by
  intro hnil
  rw [peek_of_nil hnil] at hpeek
  exact hne hpeek.symm

theorem advance_length (hc : c.rest ≠ []) : c.advance.rest.length < c.rest.length := by
  have hpos := List.length_pos_iff.mpr hc
  rw [advance_rest, List.length_tail]
  omega

theorem length_lt_of_tail {c' : Cursor} (hc : c.rest ≠ []) (htail : c'.rest <:+ c.rest.tail) :
    c'.rest.length < c.rest.length := by
  have hle := htail.length_le
  rw [← advance_rest] at hle
  exact Nat.lt_of_le_of_lt hle (advance_length hc)

theorem length_lt_steps (c : Cursor) : c.rest.length < c.steps := Nat.lt_succ_self _

theorem length_lt_steps_extend (c : Cursor) (back : List Char) :
    c.rest.length < (c.extend back).steps := by
  rw [steps, extend, List.length_append]
  omega

theorem Inside.lt_length {k : Nat} (hc : (c.forward k).Inside front) : k < c.rest.length := by
  have hne := hc.ne_nil
  rw [forward_rest, ne_eq, List.drop_eq_nil_iff] at hne
  omega

theorem Inside.peek {k : Nat} (hc : (c.forward k).Inside front) :
    (c.extend back).peek k = c.peek k := peek_extend hc.lt_length

theorem Inside.peek_zero (hc : c.Inside front) : (c.extend back).peek 0 = c.peek 0 :=
  Inside.peek (k := 0) hc

/-- Neither text is at its end. -/
theorem Inside.isEmpty (hc : c.Inside front) (back : List Char) :
    c.rest.isEmpty = false ∧ (c.extend back).rest.isEmpty = false := by
  rw [List.isEmpty_eq_false_iff, List.isEmpty_eq_false_iff]
  exact ⟨hc.ne_nil, List.append_ne_nil_of_left_ne_nil hc.ne_nil back⟩

end

section
variable {front back : List Char} (h : Continues front back) {c : Cursor}
include h

theorem Inside.forward_extend {k : Nat} (hc : (c.forward k).Inside front) :
    (c.extend back).forward k = (c.forward k).extend back :=
  Cursor.forward_extend h hc.lt_length.le

/-- A character of a line behind others. -/
theorem Inside.forward_succ {k : Nat} {p : Char → Bool} (hc : (c.forward k).Inside front)
    (hp : InLine p) (hpeek : p (c.peek k) = true) : (c.forward (k + 1)).Inside front := by
  rw [Cursor.forward_succ]
  exact hc.advance h hp (by rwa [peek_forward])

theorem Inside.peek_ne_finis (hc : c.Inside front) : c.peek 0 ≠ finis := by
  obtain ⟨ch, rest, hcons⟩ := List.exists_cons_of_ne_nil hc.ne_nil
  rw [peek_of_cons hcons]
  rintro rfl
  exact h.readable (hc.within.suffix.subset (hcons ▸ List.mem_cons_self))

/-- What follows the first character counts only if that is inside of a line. -/
theorem Inside.peek_and {p q : Char → Bool} (hc : c.Inside front) (hp : InLine p) :
    (p (c.peek 0) && q ((c.extend back).peek 1)) = (p (c.peek 0) && q (c.peek 1)) := by
  by_cases hpeek : p (c.peek 0) = true
  · rw [Inside.peek (k := 1) (hc.advance h hp hpeek)]
  · rw [Bool.eq_false_iff.mpr hpeek, Bool.false_and, Bool.false_and]

theorem Inside.isTriple {ch : Char} (hc : c.Inside front) (hch : InLine (· == ch)) :
    (c.extend back).isTriple ch = c.isTriple ch := by
  unfold Cursor.isTriple
  rw [hc.peek_zero]
  by_cases h0 : c.peek 0 == ch
  · have hc1 : (c.forward 1).Inside front := Inside.forward_succ h (k := 0) hc hch h0
    rw [hc1.peek]
    by_cases h1 : c.peek 1 == ch
    · have hc2 := hc1.forward_succ h hch h1
      rw [hc2.peek]
      by_cases h2 : c.peek 2 == ch
      · rw [(hc2.forward_succ h hch h2).peek]
      · simp [h2]
    · simp [h1]
  · simp [h0]

theorem Inside.forward_triple {ch : Char} (hc : c.Inside front) (hch : InLine (· == ch))
    (htriple : c.isTriple ch = true) : (c.forward 3).Inside front := by
  simp only [Cursor.isTriple, Bool.and_eq_true] at htriple
  obtain ⟨⟨⟨h0, h1⟩, h2⟩, -⟩ := htriple
  have hc1 : (c.forward 1).Inside front := Inside.forward_succ h (k := 0) hc hch h0
  exact (hc1.forward_succ h hch h1).forward_succ h hch h2

theorem Inside.isSeparator (hc : c.Inside front) :
    (c.extend back).isSeparator = c.isSeparator := by
  rw [Cursor.isSeparator, Cursor.isSeparator, hc.isTriple h (by decide), hc.isTriple h (by decide)]

theorem isSeparator_extend_of_nil (hnil : c.rest = []) :
    c.isSeparator = false ∧ (c.extend back).isSeparator = true := by
  have hrest : (c.extend back).rest = (Cursor.start back).rest := by
    show c.rest ++ back = back
    rw [hnil, List.nil_append]
  have hmarker := h.marker
  unfold Cursor.isSeparator Cursor.isTriple Cursor.peek at hmarker ⊢
  rw [hrest, hnil, hmarker]
  exact ⟨rfl, rfl⟩

end

/-! ### gaps -/

theorem inLine_not_lineStop : InLine fun ch => !isLineStop ch := by decide

section
variable {front back : List Char} (h : Continues front back) {c : Cursor}
include h

theorem peek_extend_of_nil (hnil : c.rest = []) : (c.extend back).peek 0 = '-' := by
  obtain ⟨more, rfl⟩ := h.cons
  rw [Cursor.peek, extend, hnil]
  rfl

/-- A class that tells the marker from the end of a text no more than from each other. -/
theorem peek_zero_class (p : Char → Bool) (hp : p '-' = p finis) :
    p ((c.extend back).peek 0) = p (c.peek 0) := by
  by_cases hnil : c.rest = []
  · rw [peek_extend_of_nil h hnil, peek_of_nil hnil, hp]
  · rw [peek_extend (List.length_pos_iff.mpr hnil)]

theorem Within.skipWhile {p : Char → Bool} (hc : c.Within front) (hp : InLine p)
    (hmarker : p '-' = false) :
    (c.extend back).skipWhile p = (c.skipWhile p).extend back ∧ (c.skipWhile p).Within front := by
  by_cases hnil : c.rest = []
  · obtain ⟨more, hback⟩ := h.cons
    obtain ⟨rest, mark⟩ := c
    obtain rfl : rest = [] := hnil
    refine ⟨?_, hc⟩
    show skipFrom p back mark = ⟨back, mark⟩
    rw [hback, skipFrom, if_neg (by rw [hmarker]; decide)]
  · obtain ⟨hextend, hinside⟩ := Inside.skipWhile h ⟨hc, hnil⟩ hp
    exact ⟨hextend, hinside.within⟩

theorem Inside.skipComment (hc : c.Inside front) :
    (c.extend back).skipComment = c.skipComment.extend back ∧ c.skipComment.Inside front := by
  unfold Cursor.skipComment
  rw [hc.peek_zero]
  split
  · exact hc.skipWhile h inLine_not_lineStop
  · exact ⟨rfl, hc⟩

theorem Within.skipComment (hc : c.Within front) :
    (c.extend back).skipComment = c.skipComment.extend back ∧ c.skipComment.Within front := by
  by_cases hnil : c.rest = []
  · have hnot : c.skipComment = c := by
      rw [Cursor.skipComment, peek_of_nil hnil]
      rfl
    rw [hnot, Cursor.skipComment, peek_extend_of_nil h hnil]
    exact ⟨rfl, hc⟩
  · obtain ⟨hextend, hinside⟩ := Inside.skipComment h ⟨hc, hnil⟩
    exact ⟨hextend, hinside.within⟩

theorem Within.skipGapWithin {blank : Char → Bool} (hblank : InLine blank)
    (hmarker : blank '-' = false) {fuel fuel' : Nat} (hc : c.Within front)
    (hfuel : c.rest.length < fuel) (hfuel' : c.rest.length < fuel') (crossed : Bool) :
    Cursor.skipGapWithin blank fuel' crossed (c.extend back)
        = ((Cursor.skipGapWithin blank fuel crossed c).1.extend back,
          (Cursor.skipGapWithin blank fuel crossed c).2)
      ∧ (Cursor.skipGapWithin blank fuel crossed c).1.Within front := by
  induction fuel generalizing fuel' crossed c with
  | zero => omega
  | succ fuel ih =>
    obtain ⟨fuel', rfl⟩ : ∃ n, fuel' = n + 1 := ⟨fuel' - 1, by omega⟩
    obtain ⟨hblanks, hc1⟩ := hc.skipWhile h hblank hmarker
    obtain ⟨hcomment, hc2⟩ := hc1.skipComment h
    have hlength : (c.skipWhile blank).skipComment.rest.length ≤ c.rest.length :=
      ((skipComment_suffix _).trans (skipWhile_suffix _ _)).length_le
    have hbehind := hc2.lineBreak
    have hshorter := @lineBreak_length (c.skipWhile blank).skipComment
    rw [Cursor.skipGapWithin, Cursor.skipGapWithin]
    simp only [hblanks, hcomment, lineBreak_extend h]
    generalize (c.skipWhile blank).skipComment = c2 at *
    generalize c2.lineBreak = broken at *
    obtain ⟨text, c3⟩ := broken
    cases text with
    | nil => exact ⟨rfl, hc2⟩
    | cons ch text =>
      have hless := hshorter (List.cons_ne_nil _ _)
      exact ih hbehind (by omega) (by omega) true

theorem Within.skipGap (hc : c.Within front) (inFlow : Bool) :
    (c.extend back).skipGap inFlow
        = ((c.skipGap inFlow).1.extend back, (c.skipGap inFlow).2)
      ∧ (c.skipGap inFlow).1.Within front := by
  have hblank : InLine (if inFlow then isSpaceOrTab else isSpace)
      ∧ (if inFlow then isSpaceOrTab else isSpace) '-' = false := by
    cases inFlow <;> decide
  have hmark := peek_zero_class h (c := c) (· == '\uFEFF') (by decide)
  unfold Cursor.skipGap
  simp only [hmark]
  by_cases hbom : (c.mark.index == 0 && c.peek 0 == '\uFEFF') = true
  · have hpeek := (Bool.and_eq_true _ _).mp hbom
    have hne : c.rest ≠ [] := ne_nil_of_peek (beq_iff_eq.mp hpeek.2) (by decide)
    rw [if_pos (show ((c.extend back).mark.index == 0 && c.peek 0 == '\uFEFF') = true from hbom),
      if_pos hbom, advance_extend h hne]
    exact hc.advance.skipGapWithin h hblank.1 hblank.2 (length_lt_steps _)
      (length_lt_steps_extend _ _) false
  · rw [if_neg (show ¬ ((c.extend back).mark.index == 0 && c.peek 0 == '\uFEFF') = true from hbom),
      if_neg hbom]
    exact hc.skipGapWithin h hblank.1 hblank.2 (length_lt_steps _)
      (length_lt_steps_extend _ _) false

end

end Cursor

end YamlSpan
