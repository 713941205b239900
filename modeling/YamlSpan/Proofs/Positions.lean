import YamlSpan.Position

/-!
# Offsets and positions

The table of a text holds zero and the offset behind each line break, in increasing order.  Binary
search finds the last entry that is not above an offset, so the position of an offset is the one
pair of a line and a character that adds up to the offset within that line.

* `BreaksAt`                  a line break ends with the code point at an offset
* `mem_lineStarts_iff`        the entries of the table
* `lt_upperBound_iff`         binary search in an increasing table
* `Position.Marks`            a position that stands for an offset
* `positions_of_offsets`      offsets and positions correspond, in order
-/

namespace YamlSpan

/-! ### the table -/

/-- The code point at an offset ends a line: a line feed, or a carriage return without one behind
it. -/
def BreaksAt (text : Text) (i : Nat) : Prop :=
  text[i]? = some (.char '\n')
    ∨ (text[i]? = some (.char '\r') ∧ text[i + 1]? ≠ some (.char '\n'))

theorem breaksAt_zero_iff {c : CodePoint} {rest : Text}
    (hpair : ∀ behind, c = .char '\r' → rest = .char '\n' :: behind → False) :
    BreaksAt (c :: rest) 0 ↔ isLineEnd c = true := by
  have hnext : (c = .char '\r' ∧ rest[0]? ≠ some (.char '\n')) ↔ c = .char '\r' := by
    refine and_iff_left_of_imp fun hc hfeed => ?_
    cases rest with
    | nil => simp at hfeed
    | cons d behind => exact hpair behind hc (by simpa using hfeed)
  simpa [BreaksAt, isLineEnd] using or_congr_right hnext

theorem breaksAt_succ_iff (c : CodePoint) (rest : Text) (i : Nat) :
    BreaksAt (c :: rest) (i + 1) ↔ BreaksAt rest i := by
  simp [BreaksAt]

/-- The offsets behind the breaks of a text are those behind the breaks of its rest, and possibly
the one behind its first code point. -/
theorem exists_breaksAt_cons_iff (c : CodePoint) (rest : Text) (offset : Nat) (x : Int) :
    (∃ i : Nat, x = offset + i + 1 ∧ BreaksAt (c :: rest) i) ↔
      (x = offset + 1 ∧ BreaksAt (c :: rest) 0)
        ∨ ∃ i : Nat, x = (offset + 1 : Nat) + i + 1 ∧ BreaksAt rest i := by
  constructor
  · rintro ⟨_ | i, hx, hbreak⟩
    · exact .inl ⟨by omega, hbreak⟩
    · exact .inr ⟨i, by omega, (breaksAt_succ_iff c rest i).mp hbreak⟩
  · rintro (⟨hx, hbreak⟩ | ⟨i, hx, hbreak⟩)
    · exact ⟨0, by omega, hbreak⟩
    · exact ⟨i + 1, by omega, (breaksAt_succ_iff c rest i).mpr hbreak⟩

theorem mem_breaksFrom_iff (offset : Nat) (text : Text) (x : Int) :
    x ∈ breaksFrom offset text ↔ ∃ i : Nat, x = offset + i + 1 ∧ BreaksAt text i := by
  fun_induction breaksFrom offset text with
  | case1 => simp [BreaksAt]
  | case2 offset rest ih =>
    have hreturn : ¬ BreaksAt (.char '\r' :: .char '\n' :: rest) 0 := by simp [BreaksAt]
    have hfeed : BreaksAt (.char '\n' :: rest) 0 := by simp [BreaksAt]
    rw [List.mem_cons, ih, exists_breaksAt_cons_iff, exists_breaksAt_cons_iff]
    simp only [hreturn, hfeed, and_false, and_true, false_or]
    rfl
  | case3 offset c rest hpair hend ih =>
    have hbreak : BreaksAt (c :: rest) 0 := (breaksAt_zero_iff hpair).mpr hend
    rw [List.mem_cons, ih, exists_breaksAt_cons_iff]
    simp only [hbreak, and_true]
    rfl
  | case4 offset c rest hpair hend ih =>
    have hnone : ¬ BreaksAt (c :: rest) 0 := fun h => hend ((breaksAt_zero_iff hpair).mp h)
    rw [ih, exists_breaksAt_cons_iff]
    simp only [hnone, and_false, false_or]

theorem breaksFrom_increasing (offset : Nat) (text : Text) :
    (breaksFrom offset text).Pairwise (· < ·) := by
  fun_induction breaksFrom offset text with
  | case1 => exact .nil
  | case2 offset rest ih =>
    refine List.pairwise_cons.mpr ⟨fun x hx => ?_, ih⟩
    obtain ⟨i, rfl, -⟩ := (mem_breaksFrom_iff _ _ _).mp hx
    omega
  | case3 offset c rest _ _ ih =>
    refine List.pairwise_cons.mpr ⟨fun x hx => ?_, ih⟩
    obtain ⟨i, rfl, -⟩ := (mem_breaksFrom_iff _ _ _).mp hx
    omega
  | case4 _ _ _ _ _ ih => exact ih

theorem mem_lineStarts_iff (text : Text) (x : Int) :
    x ∈ lineStarts text ↔ x = 0 ∨ ∃ i : Nat, x = i + 1 ∧ BreaksAt text i := by
  rw [lineStarts, List.mem_cons, mem_breaksFrom_iff]
  simp

theorem lineStarts_increasing (text : Text) : (lineStarts text).Pairwise (· < ·) := by
  refine List.pairwise_cons.mpr ⟨fun x hx => ?_, breaksFrom_increasing 0 text⟩
  obtain ⟨i, rfl, -⟩ := (mem_breaksFrom_iff _ _ _).mp hx
  omega

/-! ### binary search -/

/-- Between two places of a table: what is in front of the first is not above an offset, and what is
from the second on is. -/
structure Brackets (table : List Int) (offset : Int) (low high : Nat) : Prop where
  ordered : low ≤ high
  inside : high ≤ table.length
  below : ∀ i x, table[i]? = some x → i < low → x ≤ offset
  above : ∀ i x, table[i]? = some x → high ≤ i → offset < x

theorem le_of_increasing {table : List Int} (h : table.Pairwise (· < ·)) {i j : Nat} {x y : Int}
    (hx : table[i]? = some x) (hy : table[j]? = some y) (hij : i ≤ j) : x ≤ y := by
  obtain ⟨hi, rfl⟩ := List.getElem?_eq_some_iff.mp hx
  obtain ⟨hj, rfl⟩ := List.getElem?_eq_some_iff.mp hy
  obtain hlt | rfl := Nat.lt_or_eq_of_le hij
  · exact Int.le_of_lt (List.pairwise_iff_getElem.mp h i j hi hj hlt)
  · exact Int.le_refl _

section
variable {table : List Int} {offset x : Int} {low high mid : Nat}
  (hincreasing : table.Pairwise (· < ·)) (h : Brackets table offset low high)
  (hx : table[mid]? = some x)
include hincreasing h hx

theorem Brackets.left (hlow : low ≤ mid) (hhigh : mid < high) (habove : offset < x) :
    Brackets table offset low mid where
  ordered := hlow
  inside := Nat.le_trans (Nat.le_of_lt hhigh) h.inside
  below := h.below
  above _ _ hy hle := Int.lt_of_lt_of_le habove (le_of_increasing hincreasing hx hy hle)

theorem Brackets.right (hhigh : mid < high) (hbelow : x ≤ offset) :
    Brackets table offset (mid + 1) high where
  ordered := hhigh
  inside := h.inside
  below _ _ hy hlt :=
    Int.le_trans (le_of_increasing hincreasing hy hx (Nat.le_of_lt_succ hlt)) hbelow
  above := h.above

end

theorem upperBoundIn_brackets {table : List Int} (hincreasing : table.Pairwise (· < ·))
    (offset : Int) (fuel low high : Nat) (h : Brackets table offset low high)
    (hfuel : high - low ≤ fuel) :
    Brackets table offset (upperBoundIn table.toArray offset fuel low high)
      (upperBoundIn table.toArray offset fuel low high) := by
  -- each half brackets the offset again, and the fuel bounds what is between the two places
  induction fuel generalizing low high with
  | zero =>
    have hmet : high = low := by have := h.ordered; omega
    rw [upperBoundIn]
    exact hmet ▸ h
  | succ fuel ih =>
    rw [upperBoundIn]
    by_cases hlt : low < high
    · have hmid : (low + high) / 2 < table.length := by have := h.inside; omega
      have hx := List.getElem?_eq_getElem hmid
      have hread : table.toArray.getD ((low + high) / 2) 0 = table[(low + high) / 2] := by
        simp [hmid]
      simp only [hlt, if_true, hread]
      split
      next habove => exact ih _ _ (h.left hincreasing hx (by omega) (by omega) habove) (by omega)
      next hbelow =>
        exact ih _ _ (h.right hincreasing hx (by omega) (Int.not_lt.mp hbelow)) (by omega)
    · have hmet : high = low := by have := h.ordered; omega
      rw [if_neg hlt]
      exact hmet ▸ h

theorem upperBound_brackets {table : List Int} (hincreasing : table.Pairwise (· < ·))
    (offset : Int) :
    Brackets table offset (upperBound table offset) (upperBound table offset) := by
  refine upperBoundIn_brackets hincreasing offset _ _ _ ⟨Nat.zero_le _, Nat.le_refl _, ?_, ?_⟩
    (Nat.le_refl _)
  · intro i x _ hi
    exact absurd hi (Nat.not_lt_zero i)
  · intro i x hx hi
    obtain ⟨hlt, -⟩ := List.getElem?_eq_some_iff.mp hx
    omega

/-- Binary search counts the entries that are not above the offset. -/
theorem lt_upperBound_iff {table : List Int} (hincreasing : table.Pairwise (· < ·)) (offset : Int)
    {i : Nat} {x : Int} (hx : table[i]? = some x) : i < upperBound table offset ↔ x ≤ offset := by
  have hbrackets := upperBound_brackets hincreasing offset
  refine ⟨hbrackets.below i x hx, fun hle => Nat.lt_of_not_le fun hout => ?_⟩
  have := hbrackets.above i x hx hout
  omega

/-! ### positions -/

namespace Position

/-- A position stands for an offset: its line is in the table, its character counts from the start
of the line, and the next line starts behind the offset. -/
structure Marks (starts : List Int) (offset : Int) (p : Position) : Prop where
  line : 0 ≤ p.line
  character : 0 ≤ p.character
  sum : ∃ start, starts[p.line.toNat]? = some start ∧ start + p.character = offset
  next : ∀ start, starts[p.line.toNat + 1]? = some start → offset < start

/-- One position comes before another: on an earlier line, or on the same line at an earlier
character. -/
def Before (p q : Position) : Prop :=
  p.line < q.line ∨ (p.line = q.line ∧ p.character < q.character)

section
variable {starts : List Int} (hincreasing : starts.Pairwise (· < ·)) {offset : Int}
include hincreasing

/-- The line of a position that stands for an offset is the one that binary search finds. -/
theorem Marks.upperBound_eq {p : Position} (h : p.Marks starts offset) :
    upperBound starts offset = p.line.toNat + 1 := by
  obtain ⟨start, hstart, hsum⟩ := h.sum
  have hcharacter := h.character
  have hin : p.line.toNat < upperBound starts offset :=
    (lt_upperBound_iff hincreasing offset hstart).mpr (by omega)
  have hout : ¬ p.line.toNat + 1 < upperBound starts offset := by
    intro hlt
    have hlength := (upperBound_brackets hincreasing offset).inside
    have hnext := List.getElem?_eq_getElem (l := starts) (Nat.lt_of_lt_of_le hlt hlength)
    have hle := (lt_upperBound_iff hincreasing offset hnext).mp hlt
    have := h.next _ hnext
    omega
  omega

/-- An offset has at most one position. -/
theorem Marks.unique {p q : Position} (hp : p.Marks starts offset) (hq : q.Marks starts offset) :
    p = q := by
  have hpline := hp.upperBound_eq hincreasing
  have hqline := hq.upperBound_eq hincreasing
  have hline : p.line = q.line := by
    have := hp.line
    have := hq.line
    omega
  obtain ⟨start, hstart, hsum⟩ := hp.sum
  obtain ⟨start', hstart', hsum'⟩ := hq.sum
  rw [hline, hstart', Option.some.injEq] at hstart
  obtain ⟨line, character⟩ := p
  obtain ⟨line', character'⟩ := q
  simp only at hline hsum hsum'
  rw [hline, show character = character' by omega]

/-- Positions are in the order of their offsets. -/
theorem Marks.before {p q : Position} {offset' : Int} (hp : p.Marks starts offset)
    (hq : q.Marks starts offset') (hlt : offset < offset') : p.Before q := by
  obtain ⟨start, hstart, hsum⟩ := hp.sum
  obtain ⟨start', hstart', hsum'⟩ := hq.sum
  have hpline := hp.line
  have hqline := hq.line
  have hle : p.line.toNat < upperBound starts offset' := by
    have := hp.character
    exact (lt_upperBound_iff hincreasing offset' hstart).mpr (by omega)
  rw [hq.upperBound_eq hincreasing] at hle
  obtain hsame | hearlier : p.line = q.line ∨ p.line < q.line := by omega
  · rw [hsame, hstart', Option.some.injEq] at hstart
    exact .inr ⟨hsame, by omega⟩
  · exact .inl hearlier

end

theorem ofOffset?_max (starts : List Int) (offset : Int) :
    ofOffset? starts (max offset 0) = ofOffset? starts offset := by
  simp [ofOffset?]

/-- In a table that begins with zero, each offset has a position. -/
theorem ofOffset?_marks {starts : List Int} (hincreasing : starts.Pairwise (· < ·))
    (hzero : starts[0]? = some 0) {offset : Int} (hoffset : 0 ≤ offset) :
    ∃ p, ofOffset? starts offset = some p ∧ p.Marks starts offset := by
  have hbrackets := upperBound_brackets hincreasing offset
  have hpos : 0 < upperBound starts offset :=
    (lt_upperBound_iff hincreasing offset hzero).mpr hoffset
  obtain ⟨line, hline⟩ := Nat.exists_eq_succ_of_ne_zero (Nat.ne_of_gt hpos)
  have hlength : line < starts.length := by have := hbrackets.inside; omega
  have hstart := List.getElem?_eq_getElem hlength
  have hle := (lt_upperBound_iff hincreasing offset hstart).mp (by omega)
  refine ⟨⟨line, offset - starts[line]⟩, ?_, ?_⟩
  · rw [ofOffset?]
    simp only [Int.max_eq_left hoffset, hline, hstart, Option.map_some]
  · refine ⟨Int.natCast_nonneg _, ?_, ⟨starts[line], hstart, ?_⟩, fun start hnext => ?_⟩
    · simp only
      omega
    · simp only
      omega
    · exact hbrackets.above (line + 1) start hnext (by omega)

end Position

/-- **Offsets and positions correspond.**  The table of a text increases, begins with zero and holds
the offsets behind line breaks, a carriage return and a line feed behind it being one.  The position
of an offset, which counts as zero if it is negative, is the only one that stands for it, and
positions are in the order of their offsets. -/
theorem positions_of_offsets (text : Text) :
    (lineStarts text).Pairwise (· < ·) ∧ (lineStarts text)[0]? = some 0
    ∧ (∀ x, x ∈ lineStarts text ↔ x = 0 ∨ ∃ i : Nat, x = i + 1 ∧ BreaksAt text i)
    ∧ (∀ offset p, Position.ofOffset? (lineStarts text) offset = some p
        ↔ p.Marks (lineStarts text) (max offset 0))
    ∧ (∀ offset, ∃ p, Position.ofOffset? (lineStarts text) offset = some p)
    ∧ ∀ a b p q, 0 ≤ a → a < b → Position.ofOffset? (lineStarts text) a = some p →
        Position.ofOffset? (lineStarts text) b = some q → p.Before q := by
  have hincreasing := lineStarts_increasing text
  have hmarks : ∀ offset : Int, ∃ p, Position.ofOffset? (lineStarts text) offset = some p
      ∧ p.Marks (lineStarts text) (max offset 0) := by
    intro offset
    rw [← Position.ofOffset?_max]
    exact Position.ofOffset?_marks hincreasing rfl (Int.le_max_right offset 0)
  have hiff : ∀ offset p, Position.ofOffset? (lineStarts text) offset = some p
      ↔ p.Marks (lineStarts text) (max offset 0) := by
    intro offset p
    obtain ⟨q, hq, hqmarks⟩ := hmarks offset
    rw [hq, Option.some.injEq]
    exact ⟨fun h => h ▸ hqmarks, fun h => hqmarks.unique hincreasing h⟩
  refine ⟨hincreasing, rfl, mem_lineStarts_iff text, hiff, ?_, ?_⟩
  · intro offset
    obtain ⟨p, hp, -⟩ := hmarks offset
    exact ⟨p, hp⟩
  · intro a b p q ha hab hp hq
    exact ((hiff a p).mp hp).before hincreasing ((hiff b q).mp hq) (by omega)

/-- The line feed of a pair is still on the first line, the letter behind it begins the second. -/
theorem positions_of_offsets_pair :
    let text : Text := [.char 'a', .char '\r', .char '\n', .char 'b']
    (0 : Int) ≤ 2 ∧ (2 : Int) < 3 ∧ Position.ofOffset? (lineStarts text) 2 = some ⟨0, 2⟩
    ∧ Position.ofOffset? (lineStarts text) 3 = some ⟨1, 0⟩ ∧ Position.Before ⟨0, 2⟩ ⟨1, 0⟩ := by
  refine ⟨by decide, by decide, by decide, by decide, ?_⟩
  exact (positions_of_offsets [.char 'a', .char '\r', .char '\n', .char 'b']).2.2.2.2.2 2 3 _ _
    (by decide) (by decide) (by decide) (by decide)

end YamlSpan
