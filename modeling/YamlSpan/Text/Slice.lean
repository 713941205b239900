/-!
# Slices with signed bounds

An offset counts the code points, or the items of any list.  A negative bound counts from the
end, a bound outside the text is moved to the nearest end, and crossed bounds give the empty text.

* `bound`   where a signed bound falls
* `slice`   the items between two bounds
-/

namespace YamlSpan.Text

variable {α : Type}

/-- The place in `0 .. n` that a signed bound stands for. -/
def bound (n : Nat) (i : Int) : Nat :=
  if i < 0 then (i + n).toNat else min i.toNat n

/-- The items from `start` up to `stop`. -/
def slice (text : List α) (start stop : Int) : List α :=
  let low := bound text.length start
  (text.drop low).take (bound text.length stop - low)

theorem bound_natCast (n i : Nat) : bound n i = min i n := by
  rw [bound, if_neg (by omega), Int.toNat_natCast]

theorem slice_natCast (text : List α) (a b : Nat) (hb : b ≤ text.length) :
    slice text a b = (text.drop a).take (b - a) := by
  simp only [slice, bound_natCast, Nat.min_eq_left hb]
  by_cases ha : a ≤ text.length
  · rw [Nat.min_eq_left ha]
  · have h1 : text.drop a = [] := List.drop_eq_nil_of_le (by omega)
    have h2 : text.drop (min a text.length) = [] := List.drop_eq_nil_of_le (by omega)
    rw [h1, h2, List.take_nil, List.take_nil]

end YamlSpan.Text
