import Mathlib.Order.Bounds.Basic
import YamlSpan.Raw.Assembly

/-!
# Document markers

A marker behind the start of a text follows a line end, has three dashes, and ends with the text or
before a blank.  The search for a marker walks along the text with the code point in front of it in
hand, so it can start in the middle and still sees the line end in front of where it starts.

* `MarkerAt`             a marker stands at an offset
* `nextMarker_isLeast`   the search finds the first one at or behind an offset
* `nextMarker_none_iff`  it finds none only where there is none
* `nextMarker_drop`      it finds the same markers in the rest of a text
* `lineStop_drop`        lines of the rest of a text end where they end in the text
-/

namespace YamlSpan

namespace Assembly

/-- A document marker stands at an offset behind the start of a text. -/
def MarkerAt (text : Text) (i : Nat) : Prop :=
  (text.drop i).take 3 = [.char '-', .char '-', .char '-']
    ∧ (0 < i ∧ (text[i - 1]? = some (.char '\r') ∨ text[i - 1]? = some (.char '\n')))
    ∧ (i + 3 = text.length ∨ text[i + 3]? = some (.char ' ') ∨ text[i + 3]? = some (.char '\t')
      ∨ text[i + 3]? = some (.char '\r') ∨ text[i + 3]? = some (.char '\n'))

instance (text : Text) : DecidablePred (MarkerAt text) :=
  fun _ => inferInstanceAs (Decidable (_ ∧ _))

theorem MarkerAt.lt_length {text : Text} {i : Nat} (h : MarkerAt text i) : i < text.length := by
  by_contra hlt
  have hnil : text.drop i = [] := List.drop_eq_nil_of_le (by omega)
  have htake := h.1
  rw [hnil] at htake
  cases htake

theorem MarkerAt.pos {text : Text} {i : Nat} (h : MarkerAt text i) : 0 < i := h.2.1.1

theorem isLineEnd_iff (c : CodePoint) :
    isLineEnd c = true ↔ c = .char '\r' ∨ c = .char '\n' := by
  unfold isLineEnd
  rw [Bool.or_eq_true, beq_iff_eq, beq_iff_eq, or_comm]

/-- The test of a marker on the text from its place on. -/
theorem isMarker_iff (rest : Text) :
    isMarker rest = true ↔ rest.take 3 = [.char '-', .char '-', .char '-']
      ∧ (rest.length = 3 ∨ rest[3]? = some (.char ' ') ∨ rest[3]? = some (.char '\t')
        ∨ rest[3]? = some (.char '\r') ∨ rest[3]? = some (.char '\n')) := by
  match rest with
  | [] => simp [isMarker]
  | [a] => simp [isMarker]
  | [a, b] => simp [isMarker]
  | a :: b :: c :: more =>
    by_cases h : a = .char '-' ∧ b = .char '-' ∧ c = .char '-'
    · obtain ⟨rfl, rfl, rfl⟩ := h
      cases more with
      | nil => simp [isMarker]
      | cons e more => simp [isMarker, isLineEnd_iff, or_assoc]
    · have hfalse : isMarker (a :: b :: c :: more) = false := by
        unfold isMarker
        split <;> simp_all
      rw [hfalse]
      constructor
      · intro hm
        cases hm
      · rintro ⟨hdashes, -⟩
        exact absurd (by simpa using hdashes) h

theorem markerAt_iff (text : Text) (i : Nat) (c : CodePoint) (hpos : 0 < i)
    (hc : text[i - 1]? = some c) :
    MarkerAt text i ↔ isLineEnd c = true ∧ isMarker (text.drop i) = true := by
  have hlength : (text.drop i).length = 3 ↔ i + 3 = text.length := by
    rw [List.length_drop]
    omega
  unfold MarkerAt
  rw [isLineEnd_iff, isMarker_iff, hlength, List.getElem?_drop, hc]
  simp only [hpos, true_and, Option.some.injEq]
  constructor
  · rintro ⟨hdashes, hline, hend⟩
    exact ⟨hline, hdashes, hend⟩
  · rintro ⟨hline, hdashes, hend⟩
    exact ⟨hdashes, hline, hend⟩

/-! ### the search -/

theorem markerFrom_cons (previous : Option CodePoint) (offset : Nat) (c : CodePoint) (rest : Text) :
    markerFrom previous offset (c :: rest)
      = if (previous.map isLineEnd).getD true && isMarker (c :: rest) then some offset
        else markerFrom (some c) (offset + 1) rest := rfl

/-- The search from the middle of a text, with the code point in front. -/
theorem markerFrom_drop (text rest : Text) : ∀ offset : Nat, rest = text.drop offset → 0 < offset →
    (∀ i, markerFrom text[offset - 1]? offset rest = some i →
        IsLeast {i | offset ≤ i ∧ MarkerAt text i} i)
      ∧ (markerFrom text[offset - 1]? offset rest = none →
        ∀ i, offset ≤ i → ¬ MarkerAt text i) := by
  induction rest with
  | nil =>
    intro offset hrest hpos
    have hlen : text.length ≤ offset := by
      have := congrArg List.length hrest
      rw [List.length_drop, List.length_nil] at this
      omega
    constructor
    · intro i h
      cases h
    · intro _ i hi hm
      have := hm.lt_length
      omega
  | cons c rest ih =>
    intro offset hrest hpos
    have hlt : offset < text.length := by
      have := congrArg List.length hrest
      rw [List.length_drop, List.length_cons] at this
      omega
    obtain ⟨p, hp⟩ : ∃ p, text[offset - 1]? = some p :=
      ⟨_, List.getElem?_eq_getElem (show offset - 1 < text.length by omega)⟩
    have hc : text[offset + 1 - 1]? = some c := by
      have h0 : (text.drop offset)[0]? = some c := by rw [← hrest]; rfl
      rw [List.getElem?_drop] at h0
      exact h0
    have hnext : rest = text.drop (offset + 1) := by
      rw [← List.drop_drop, ← hrest]
      rfl
    have hmark := markerAt_iff text offset p hpos hp
    rw [← hrest] at hmark
    rw [markerFrom_cons, hp]
    by_cases hhere : MarkerAt text offset
    · obtain ⟨hline, htest⟩ := hmark.mp hhere
      rw [if_pos (by rw [Option.map_some, Option.getD_some, hline, htest]; rfl)]
      constructor
      · intro i hi
        obtain rfl : offset = i := Option.some.inj hi
        exact ⟨⟨le_refl _, hhere⟩, fun j hj => hj.1⟩
      · intro hnone
        cases hnone
    · have htest :
          ¬ ((Option.map isLineEnd (some p)).getD true && isMarker (c :: rest)) = true := by
        rw [Option.map_some, Option.getD_some, Bool.and_eq_true]
        exact fun h => hhere (hmark.mpr h)
      rw [if_neg htest, ← hc]
      -- no marker stands here, so those at or behind here are those behind
      have hbehind : ∀ i, offset ≤ i → MarkerAt text i → offset + 1 ≤ i := by
        intro i hi hm
        rcases Nat.eq_or_lt_of_le hi with rfl | h
        · exact absurd hm hhere
        · exact h
      obtain ⟨hsome, hnone⟩ := ih (offset + 1) hnext (by omega)
      constructor
      · intro i hi
        obtain ⟨⟨hle, hm⟩, hleast⟩ := hsome i hi
        exact ⟨⟨by omega, hm⟩, fun j hj => hleast ⟨hbehind j hj.1 hj.2, hj.2⟩⟩
      · intro h i hi hm
        exact hnone h i (hbehind i hi hm) hm

theorem nextMarker_of_pos (text : Text) {index : Nat} (hpos : 0 < index) :
    nextMarker text index = markerFrom text[index - 1]? index (text.drop index) := by
  rw [nextMarker, if_neg (by omega)]

/-- The search finds the first marker at or behind an offset. -/
theorem nextMarker_isLeast (text : Text) {index i : Nat} (hpos : 0 < index)
    (h : nextMarker text index = some i) : IsLeast {i | index ≤ i ∧ MarkerAt text i} i := by
  rw [nextMarker_of_pos text hpos] at h
  exact (markerFrom_drop text _ index rfl hpos).1 i h

theorem nextMarker_none_iff (text : Text) {index : Nat} (hpos : 0 < index) :
    nextMarker text index = none ↔ ∀ i, index ≤ i → ¬ MarkerAt text i := by
  constructor
  · intro h
    rw [nextMarker_of_pos text hpos] at h
    exact (markerFrom_drop text _ index rfl hpos).2 h
  · intro h
    cases hnext : nextMarker text index with
    | none => rfl
    | some i =>
      obtain ⟨⟨hle, hm⟩, _⟩ := nextMarker_isLeast text hpos hnext
      exact absurd hm (h i hle)

theorem nextMarker_some_iff (text : Text) {index i : Nat} (hpos : 0 < index) :
    nextMarker text index = some i ↔ IsLeast {i | index ≤ i ∧ MarkerAt text i} i := by
  refine ⟨nextMarker_isLeast text hpos, fun hleast => ?_⟩
  cases hnext : nextMarker text index with
  | none => exact absurd hleast.1.2 ((nextMarker_none_iff text hpos).mp hnext i hleast.1.1)
  | some j => rw [(nextMarker_isLeast text hpos hnext).unique hleast]

/-! ### the rest of a text -/

theorem markerFrom_shift (o : Nat) (rest : Text) : ∀ (previous : Option CodePoint) (offset : Nat),
    markerFrom previous (o + offset) rest = (markerFrom previous offset rest).map (o + ·) := by
  induction rest with
  | nil => intro previous offset; rfl
  | cons c rest ih =>
    intro previous offset
    rw [markerFrom_cons, markerFrom_cons, Nat.add_assoc, ih]
    split <;> rfl

/-- The markers of the rest of a text are those of the text, but for one at its start. -/
theorem nextMarker_drop (text : Text) (o : Nat) {index : Nat} (hpos : 0 < index) :
    nextMarker text (o + index) = (nextMarker (text.drop o) index).map (o + ·) := by
  rw [nextMarker_of_pos text (by omega), nextMarker_of_pos _ hpos, markerFrom_shift,
    List.drop_drop, List.getElem?_drop]
  rw [show o + (index - 1) = o + index - 1 by omega]

theorem lineStop_drop (text : Text) (o index : Nat) :
    lineStop text (o + index) = o + lineStop (text.drop o) index := by
  rw [lineStop, lineStop, List.drop_drop, Nat.add_assoc]

end Assembly

end YamlSpan
