/-!
# Dictionaries in order of first insertion

A dictionary is a list of pairs.  Putting a key that is present replaces its value in place, so
the order is that of the first insertions and the value that of the last.

* `Assoc.put`      one pair
* `Assoc.ofList`   all pairs of a list, in order
-/

namespace YamlSpan.Assoc

variable {κ α : Type} [DecidableEq κ]

/-- Replaces the value of a key in place, or appends a new pair. -/
def put (key : κ) (value : α) : List (κ × α) → List (κ × α)
  | [] => [(key, value)]
  | (k, v) :: rest => if k = key then (k, value) :: rest else (k, v) :: put key value rest

def ofList (pairs : List (κ × α)) : List (κ × α) :=
  pairs.foldl (fun dict (key, value) => put key value dict) []

section
variable [BEq κ] [LawfulBEq κ]

/-! ### values -/

theorem lookup_cons (name key : κ) (value : α) (rest : List (κ × α)) :
    ((key, value) :: rest).lookup name = if key = name then some value else rest.lookup name := by
  rw [List.lookup_cons]
  by_cases h : key = name
  · rw [if_pos h, h, beq_self_eq_true]
  · rw [if_neg h, beq_false_of_ne (Ne.symm h)]

theorem lookup_put (name key : κ) (value : α) (pairs : List (κ × α)) :
    (put key value pairs).lookup name = if key = name then some value else pairs.lookup name := by
  induction pairs with
  | nil => exact lookup_cons name key value []
  | cons pair rest ih =>
    obtain ⟨k, v⟩ := pair
    rw [put, lookup_cons]
    by_cases hk : k = key
    · subst hk
      rw [if_pos rfl, lookup_cons]
      split <;> rfl
    · rw [if_neg hk, lookup_cons, ih]
      by_cases hname : k = name
      · rw [if_pos hname, if_pos hname, if_neg fun h => hk (hname.trans h.symm)]
      · rw [if_neg hname, if_neg hname]

/-- The value of a key is that of its last pair. -/
theorem lookup_ofList (name : κ) (pairs : List (κ × α)) :
    (ofList pairs).lookup name = pairs.reverse.lookup name := by
  have hfrom : ∀ dict : List (κ × α),
      (pairs.foldl (fun dict (key, value) => put key value dict) dict).lookup name
        = (pairs.reverse.lookup name).or (dict.lookup name) := by
    induction pairs with
    | nil => intro dict; rfl
    | cons pair rest ih =>
      intro dict
      obtain ⟨key, value⟩ := pair
      rw [List.foldl_cons, ih, lookup_put, List.reverse_cons, List.lookup_append, lookup_cons]
      cases rest.reverse.lookup name with
      | some value => rfl
      | none => split <;> rfl
  rw [ofList, hfrom, List.lookup_nil, Option.or_none]

/-! ### keys -/

/-- The first of some keys is the first that is new, unless it is among earlier ones. -/
theorem newKeys_cons (earlier keys : List κ) (key : κ) :
    ((key :: keys).removeAll earlier).eraseDups
      = if key ∈ earlier then (keys.removeAll earlier).eraseDups
        else key :: (keys.removeAll (earlier ++ [key])).eraseDups := by
  rw [List.cons_removeAll]
  by_cases hmem : key ∈ earlier
  · rw [if_pos hmem]
    simp [hmem]
  · have hlater : keys.removeAll (earlier ++ [key])
        = (keys.removeAll earlier).filter fun k => !k == key := by
      rw [List.removeAll, List.removeAll, List.filter_filter]
      congr 1
      funext k
      rw [List.elem_eq_contains, List.contains_append, Bool.not_or, Bool.and_comm]
      by_cases hk : k = key <;> simp [hk]
    rw [if_neg hmem, hlater, ← List.eraseDups_cons]
    simp [hmem]

/-- A key keeps its place, and a new one comes last. -/
theorem keys_put (key : κ) (value : α) (pairs : List (κ × α)) :
    (put key value pairs).map Prod.fst
      = if key ∈ pairs.map Prod.fst then pairs.map Prod.fst else pairs.map Prod.fst ++ [key] := by
  induction pairs with
  | nil => rfl
  | cons pair rest ih =>
    obtain ⟨k, v⟩ := pair
    rw [put]
    by_cases hk : k = key
    · rw [if_pos hk, List.map_cons, List.map_cons, hk, if_pos List.mem_cons_self]
    · rw [if_neg hk, List.map_cons, List.map_cons, ih]
      by_cases hmem : key ∈ rest.map Prod.fst
      · rw [if_pos hmem, if_pos (List.mem_cons_of_mem _ hmem)]
      · have hnew : key ∉ k :: rest.map Prod.fst := by
          rw [List.mem_cons, not_or]
          exact ⟨Ne.symm hk, hmem⟩
        rw [if_neg hmem, if_neg hnew, List.cons_append]

/-- The keys stand in the order of their first pairs. -/
theorem keys_ofList (pairs : List (κ × α)) :
    (ofList pairs).map Prod.fst = (pairs.map Prod.fst).eraseDups := by
  have hfrom : ∀ dict : List (κ × α),
      (pairs.foldl (fun dict (key, value) => put key value dict) dict).map Prod.fst
        = dict.map Prod.fst ++ ((pairs.map Prod.fst).removeAll (dict.map Prod.fst)).eraseDups := by
    induction pairs with
    | nil => intro dict; simp
    | cons pair rest ih =>
      intro dict
      obtain ⟨key, value⟩ := pair
      rw [List.foldl_cons, ih, keys_put, List.map_cons, newKeys_cons]
      split
      · rfl
      · rw [List.append_assoc, List.singleton_append]
  rw [ofList, hfrom, List.map_nil, List.removeAll_nil, List.nil_append]

end

end YamlSpan.Assoc
