/-!
# Maps as lists of pairs

A finite map is a list of pairs in the order in which keys were first entered. Entering a known key
replaces its value where it stands. `List.lookup` is the view: see `lookup_put` and `keys_put`.
-/

namespace GrammarLab.Assoc

variable {κ α : Type} [DecidableEq κ]

def put (k : κ) (v : α) : List (κ × α) → List (κ × α)
  | [] => [(k, v)]
  | (j, w) :: rest => if j = k then (j, v) :: rest else (j, w) :: put k v rest

theorem lookup_put (k j : κ) (v : α) (es : List (κ × α)) :
    (put k v es).lookup j = if j = k then some v else es.lookup j := by
  induction es with
  | nil =>
    by_cases h : j = k
    · simp [put, h]
    · simp [put, List.lookup_cons, h, beq_false_of_ne h]
  | cons e rest ih =>
    obtain ⟨i, w⟩ := e
    by_cases hi : i = k
    · rw [put, if_pos hi, hi]
      by_cases h : j = k
      · simp [h]
      · simp [List.lookup_cons, h, beq_false_of_ne h]
    · rw [put, if_neg hi]
      by_cases h : j = i
      · simp [h, hi]
      · simp [List.lookup_cons, beq_false_of_ne h, ih]

theorem keys_put (k : κ) (v : α) (es : List (κ × α)) :
    (put k v es).map Prod.fst =
      if k ∈ es.map Prod.fst then es.map Prod.fst else es.map Prod.fst ++ [k] := by
  induction es with
  | nil => simp [put]
  | cons e rest ih =>
    obtain ⟨i, w⟩ := e
    by_cases hi : i = k
    · simp [put, hi]
    · have hki : k ≠ i := fun e => hi e.symm
      simp only [put, hi, if_false, List.map_cons, ih, List.mem_cons, hki, false_or]
      split <;> simp

theorem lookup_eq_none {j : κ} {es : List (κ × α)} :
    es.lookup j = none ↔ j ∉ es.map Prod.fst := by
  rw [List.lookup_eq_none_iff, List.mem_map, not_exists]
  refine forall_congr' fun e => ?_
  rw [bne_iff_ne, not_and]
  exact forall_congr' fun _ => ne_comm

theorem mem_of_lookup {j : κ} {v : α} {es : List (κ × α)} (h : es.lookup j = some v) :
    (j, v) ∈ es := by
  obtain ⟨before, after, rfl, -⟩ := List.lookup_eq_some_iff.mp h
  simp

/-- Look-ups agree where both lists have the key or neither has, and they agree on its values. -/
theorem lookup_congr {j : κ} {es fs : List (κ × α)}
    (hkeys : j ∈ es.map Prod.fst ↔ j ∈ fs.map Prod.fst)
    (hone : ∀ v w, (j, v) ∈ es → (j, w) ∈ fs → v = w) : es.lookup j = fs.lookup j := by
  cases hes : es.lookup j with
  | none => exact (lookup_eq_none.mpr fun h => lookup_eq_none.mp hes (hkeys.mpr h)).symm
  | some v =>
    cases hfs : fs.lookup j with
    | none =>
      have hkey : j ∈ es.map Prod.fst := List.mem_map_of_mem (mem_of_lookup hes)
      exact absurd (hkeys.mp hkey) (lookup_eq_none.mp hfs)
    | some w => rw [hone v w (mem_of_lookup hes) (mem_of_lookup hfs)]

end GrammarLab.Assoc
