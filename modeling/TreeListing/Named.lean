/-!
Values by name, each name once, in the order in which they were put in last.
-/
namespace TreeListing.Named

variable {α : Type}

/-- Puts a value in at the end; an older value of the name is taken out. -/
def put (pairs : List (String × α)) (name : String) (value : α) : List (String × α) :=
  pairs.filter (·.1 ≠ name) ++ [(name, value)]

theorem lookup_cons (other name : String) (value : α) (pairs : List (String × α)) :
    ((name, value) :: pairs).lookup other = if other = name then some value else pairs.lookup other := by
  rw [List.lookup_cons]
  split
  next h => simp [beq_iff_eq.mp h]
  next h => simp [beq_eq_false_iff_ne.mp h]

theorem lookup_filter (pairs : List (String × α)) (name other : String) :
    (pairs.filter (·.1 ≠ name)).lookup other = if other = name then none else pairs.lookup other := by
  induction pairs with
  | nil => simp
  | cons pair rest ih =>
    obtain ⟨first, value⟩ := pair
    rw [List.filter_cons, lookup_cons]
    by_cases hf : first = name
    · subst hf
      simp only [ne_eq, not_true_eq_false, decide_false, Bool.false_eq_true, if_false]
      rw [ih]
      split <;> rfl
    · simp only [ne_eq, hf, not_false_eq_true, decide_true, if_true, lookup_cons]
      rw [ih]
      split
      next ho => subst ho; simp [hf]
      next => rfl

/-- The value that was put in is the one that is found, and no other name is touched. -/
theorem lookup_put (pairs : List (String × α)) (name other : String) (value : α) :
    (put pairs name value).lookup other = if other = name then some value else pairs.lookup other := by
  unfold put
  rw [List.lookup_append, lookup_filter, lookup_cons]
  split <;> simp

theorem map_fst_put (pairs : List (String × α)) (name : String) (value : α) :
    (put pairs name value).map Prod.fst = (pairs.map Prod.fst).filter (· ≠ name) ++ [name] := by
  simp [put, List.filter_map, Function.comp_def]

theorem nodup_put {pairs : List (String × α)} (h : (pairs.map Prod.fst).Nodup) (name : String)
    (value : α) :
    ((put pairs name value).map Prod.fst).Nodup := by
  rw [map_fst_put, List.nodup_append]
  refine ⟨List.filter_sublist.nodup h, by simp, ?_⟩
  intro a ha b hb hab
  rw [List.mem_singleton] at hb
  exact absurd (hab.trans hb) (by simpa using (List.mem_filter.mp ha).2)

end TreeListing.Named
