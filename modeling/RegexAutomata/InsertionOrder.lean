/-
Entries in the order in which their keys were first mentioned.

`InsertionOrder.alter` changes the value of a key where it stands, or puts a
new entry at the end.  The keys then are the old ones, with the new key behind
them if it was new (`map_fst_alter`), and no other entry changes
(`mem_alter`).
-/

namespace RegexAutomata.InsertionOrder

variable {κ ν : Type}

/-- Change the value of a key, or add the key at the end. -/
def alter [DecidableEq κ] (key : κ) (change : Option ν → ν) : List (κ × ν) → List (κ × ν)
  | [] => [(key, change none)]
  | e :: es =>
    if e.1 = key then (key, change (some e.2)) :: es else e :: alter key change es

theorem map_fst_alter [DecidableEq κ] (key : κ) (change : Option ν → ν) (es : List (κ × ν)) :
    (alter key change es).map Prod.fst =
      if key ∈ es.map Prod.fst then es.map Prod.fst else es.map Prod.fst ++ [key] := by
  induction es with
  | nil => simp [alter]
  | cons e es ih =>
    by_cases h : e.1 = key
    · simp [alter, h]
    · have h' : ¬ key = e.1 := fun he => h he.symm
      simp only [alter, h, if_false, List.map_cons, ih, List.mem_cons, h', false_or]
      split <;> simp

/-- Altering a key neither repeats nor loses one. -/
theorem nodup_map_fst_alter [DecidableEq κ] {key : κ} {change : Option ν → ν}
    {es : List (κ × ν)} (h : (es.map Prod.fst).Nodup) :
    ((alter key change es).map Prod.fst).Nodup := by
  rw [map_fst_alter]
  split
  · exact h
  · rename_i hk
    refine List.nodup_append.2 ⟨h, by simp, ?_⟩
    intro x hx y hy
    rw [List.mem_singleton.1 hy]
    exact fun e => hk (e ▸ hx)

theorem mem_alter [DecidableEq κ] {key : κ} {change : Option ν → ν} {es : List (κ × ν)}
    {entry : κ × ν} (h : entry ∈ alter key change es) :
    (∃ old, entry = (key, change old)) ∨ entry ∈ es := by
  induction es with
  | nil => exact Or.inl ⟨none, by simpa [alter] using h⟩
  | cons e es ih =>
    by_cases hp : e.1 = key
    · simp only [alter, hp, if_true, List.mem_cons] at h
      rcases h with h | h
      · exact Or.inl ⟨_, h⟩
      · exact Or.inr (List.mem_cons_of_mem _ h)
    · simp only [alter, hp, if_false, List.mem_cons] at h
      rcases h with h | h
      · exact Or.inr (h ▸ List.mem_cons_self)
      · exact (ih h).imp_right (List.mem_cons_of_mem _)

end RegexAutomata.InsertionOrder
