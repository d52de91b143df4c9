/-
Finite maps from numbers, as lists of entries in ascending order of their keys.

The order is part of the type, so a map is known by its look-ups (`ext`).  The
operations are described by what they do to look-ups (`find?_insert`,
`find?_erase`).
-/

namespace RegexAutomata

/-- A finite map from numbers. -/
structure NatMap (α : Type) where
  /-- The entries. -/
  entries : List (Nat × α)
  /-- The keys ascend. -/
  ascending : entries.Pairwise fun d e => d.1 < e.1
  deriving DecidableEq

namespace NatMap

variable {α : Type}

/-- The map without entries. -/
def empty : NatMap α := ⟨[], .nil⟩

/-- The keys in ascending order. -/
def keys (m : NatMap α) : List Nat := m.entries.map Prod.fst

/-- The value of a key. -/
def find? (m : NatMap α) (k : Nat) : Option α := (m.entries.find? fun e => e.1 = k).map Prod.snd

/-- Put an entry where its key belongs, in place of one with the same key. -/
def insertEntry (k : Nat) (v : α) : List (Nat × α) → List (Nat × α)
  | [] => [(k, v)]
  | e :: es =>
    if k < e.1 then (k, v) :: e :: es
    else if k = e.1 then (k, v) :: es
    else e :: insertEntry k v es

theorem mem_insertEntry {k : Nat} {v : α} {es : List (Nat × α)} {e : Nat × α}
    (h : e ∈ insertEntry k v es) : e = (k, v) ∨ e ∈ es := by
  induction es with
  | nil => exact Or.inl (by simpa [insertEntry] using h)
  | cons d ds ih =>
    simp only [insertEntry] at h
    split at h
    · exact (List.mem_cons.1 h)
    · split at h
      · exact (List.mem_cons.1 h).imp_right (List.mem_cons_of_mem _)
      · rcases List.mem_cons.1 h with rfl | h
        · exact Or.inr List.mem_cons_self
        · exact (ih h).imp_right (List.mem_cons_of_mem _)

theorem pairwise_insertEntry {k : Nat} {v : α} {es : List (Nat × α)}
    (h : es.Pairwise fun d e => d.1 < e.1) :
    (insertEntry k v es).Pairwise fun d e => d.1 < e.1 := by
  induction es with
  | nil => simp [insertEntry]
  | cons d ds ih =>
    obtain ⟨hd, hds⟩ := List.pairwise_cons.1 h
    simp only [insertEntry]
    split
    · rename_i hk
      refine List.pairwise_cons.2 ⟨fun e he => ?_, h⟩
      rcases List.mem_cons.1 he with rfl | he
      · exact hk
      · exact Nat.lt_trans hk (hd e he)
    · split
      · rename_i hk
        exact List.pairwise_cons.2 ⟨fun e he => hk ▸ hd e he, hds⟩
      · refine List.pairwise_cons.2 ⟨fun e he => ?_, ih hds⟩
        rcases mem_insertEntry he with rfl | he
        · simp only
          omega
        · exact hd e he

/-- Give a key a value. -/
def insert (m : NatMap α) (k : Nat) (v : α) : NatMap α :=
  ⟨insertEntry k v m.entries, pairwise_insertEntry m.ascending⟩

/-- Forget a key. -/
def erase (m : NatMap α) (k : Nat) : NatMap α :=
  ⟨m.entries.filter fun e => e.1 ≠ k, m.ascending.sublist List.filter_sublist⟩

/-! ### Look-ups -/

theorem mem_entries_iff {m : NatMap α} {k : Nat} {v : α} :
    (k, v) ∈ m.entries ↔ m.find? k = some v := by
  obtain ⟨es, h⟩ := m
  simp only [find?]
  induction es with
  | nil => simp
  | cons d ds ih =>
    obtain ⟨hd, hds⟩ := List.pairwise_cons.1 h
    by_cases hk : d.1 = k
    · subst hk
      simp only [List.mem_cons, List.find?_cons, decide_true, Option.map_some, Option.some_inj]
      constructor
      · rintro (h | h)
        · rw [← h]
        · exact absurd (hd _ h) (Nat.lt_irrefl _)
      · rintro rfl
        exact Or.inl rfl
    · have hne : (k, v) ≠ d := fun e => hk (e ▸ rfl)
      simp only [List.mem_cons, hne, false_or, List.find?_cons, hk, decide_false]
      exact ih hds

theorem find?_empty (k : Nat) : (empty : NatMap α).find? k = none := rfl

theorem find?_insert (m : NatMap α) (k j : Nat) (v : α) :
    (m.insert k v).find? j = if j = k then some v else m.find? j := by
  obtain ⟨es, h⟩ := m
  simp only [find?, insert]
  clear h
  induction es with
  | nil =>
    by_cases hj : j = k
    · simp [insertEntry, hj]
    · simp [insertEntry, hj, Ne.symm hj]
  | cons d ds ih =>
    simp only [insertEntry]
    by_cases hj : j = k
    · subst hj
      split
      · simp
      · split
        · simp
        · rename_i hne
          simpa [List.find?_cons, Ne.symm hne] using ih
    · have hkj : ¬ k = j := fun e => hj e.symm
      split
      · simp [List.find?_cons, hkj]
      · split
        · rename_i hk
          subst hk
          simp [hkj]
        · simp only [List.find?_cons]
          by_cases hd : d.1 = j
          · simp [hd]
          · simpa [hd, hj] using ih

theorem find?_erase (m : NatMap α) (k j : Nat) :
    (m.erase k).find? j = if j = k then none else m.find? j := by
  simp only [find?, erase, List.find?_filter]
  by_cases hj : j = k
  · subst hj
    rw [if_pos rfl, Option.map_eq_none_iff, List.find?_eq_none]
    intro e _ he
    simp at he
  · rw [if_neg hj]
    congr 2
    funext e
    by_cases he : e.1 = j <;> simp [he, hj]

theorem mem_keys_iff {m : NatMap α} {k : Nat} : k ∈ m.keys ↔ (m.find? k).isSome := by
  simp only [keys, List.mem_map, Option.isSome_iff_exists]
  constructor
  · rintro ⟨⟨j, v⟩, he, rfl⟩
    exact ⟨v, mem_entries_iff.1 he⟩
  · rintro ⟨v, hv⟩
    exact ⟨(k, v), mem_entries_iff.2 hv, rfl⟩

/-- Maps with the same look-ups are the same. -/
theorem ext {m n : NatMap α} (h : ∀ k, m.find? k = n.find? k) : m = n := by
  have hmem : ∀ e, e ∈ m.entries ↔ e ∈ n.entries := fun ⟨k, v⟩ => by
    rw [mem_entries_iff, mem_entries_iff, h k]
  suffices m.entries = n.entries by
    cases m
    cases n
    cases this
    rfl
  have hm := m.ascending
  have hn := n.ascending
  generalize m.entries = es at *
  generalize n.entries = ds at *
  clear h
  induction es generalizing ds with
  | nil =>
    cases ds with
    | nil => rfl
    | cons d ds => exact absurd ((hmem d).2 List.mem_cons_self) List.not_mem_nil
  | cons e es ih =>
    cases ds with
    | nil => exact absurd ((hmem e).1 List.mem_cons_self) List.not_mem_nil
    | cons d ds =>
      obtain ⟨he, hes⟩ := List.pairwise_cons.1 hm
      obtain ⟨hd, hds⟩ := List.pairwise_cons.1 hn
      have hed : e = d := by
        rcases List.mem_cons.1 ((hmem e).1 List.mem_cons_self) with h₁ | h₁
        · exact h₁
        · rcases List.mem_cons.1 ((hmem d).2 List.mem_cons_self) with h₂ | h₂
          · exact h₂.symm
          · exact absurd (Nat.lt_trans (he d h₂) (hd e h₁)) (Nat.lt_irrefl _)
      subst hed
      refine congrArg (e :: ·) (ih hes ds hds fun x => ?_)
      constructor
      · intro hx
        rcases List.mem_cons.1 ((hmem x).1 (List.mem_cons_of_mem _ hx)) with rfl | h₁
        · exact absurd (he x hx) (Nat.lt_irrefl _)
        · exact h₁
      · intro hx
        rcases List.mem_cons.1 ((hmem x).2 (List.mem_cons_of_mem _ hx)) with rfl | h₁
        · exact absurd (hd x hx) (Nat.lt_irrefl _)
        · exact h₁

end NatMap

end RegexAutomata
