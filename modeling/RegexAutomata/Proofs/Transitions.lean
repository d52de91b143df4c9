/-
The transitions of an automaton after each change.

A transition is written down at both its ends.  An automaton is `WellLinked` if
the two always agree and the roles name states that exist.  Each change is
described by what it does to the look-ups of labels (`label?_connect`,
`label?_disconnect`, `label?_removeState`, `label?_connectAll`) and of states,
and keeps the two ends in agreement.
-/
import Mathlib.Data.List.Nodup
import RegexAutomata.Automaton.Basic

namespace RegexAutomata.Automaton

variable {a : Automaton} {p q x y : State} {label : String}

/-- The label of the transition from `p` to `q`, as it is written down at `q`. -/
def entering? (a : Automaton) (p q : State) : Option String :=
  (a.row? q).bind fun links => links.into.find? p

/-- Both ends of every transition agree, and the roles are with states. -/
structure WellLinked (a : Automaton) : Prop where
  agree : ∀ p q, a.label? p q = a.entering? p q
  initial_mem : ∀ q, a.initial = some q → a.contains q = true
  final_mem : ∀ q, a.final = some q → a.contains q = true

theorem WellLinked.contains_of_label? (h : a.WellLinked) (hl : a.label? p q = some label) :
    a.contains p = true ∧ a.contains q = true := by
  constructor
  · obtain ⟨links, hlinks, -⟩ := Option.bind_eq_some_iff.1 hl
    rw [contains, hlinks]
    rfl
  · rw [h.agree] at hl
    obtain ⟨links, hlinks, -⟩ := Option.bind_eq_some_iff.1 hl
    rw [contains, hlinks]
    rfl

theorem wellLinked_empty : empty.WellLinked where
  agree p q := rfl
  initial_mem q h := by cases h
  final_mem q h := by cases h

/-! ### Look-ups -/

theorem lt_nextState (h : a.contains q = true) : q < a.nextState := by
  rw [contains, row?, Option.isSome_iff_exists] at h
  obtain ⟨links, hlinks⟩ := h
  rw [Option.join_eq_some_iff] at hlinks
  exact (Array.getElem?_eq_some_iff.1 hlinks).1

theorem mem_states : q ∈ a.states ↔ a.contains q = true := by
  rw [states, List.mem_filter, List.mem_range]
  exact ⟨fun h => h.2, fun h => ⟨lt_nextState h, h⟩⟩

theorem nodup_states (a : Automaton) : a.states.Nodup := List.nodup_range.filter _

/-- Without one of them there is one state less. -/
theorem length_filter_ne {qs : List State} (hqs : qs.Nodup) (hq : q ∈ qs) :
    (qs.filter fun x => x ≠ q).length + 1 = qs.length := by
  rw [← List.length_erase_add_one hq, hqs.erase_eq_filter]
  congr 2
  refine List.filter_congr fun x _ => ?_
  by_cases hx : x = q <;> simp [hx]

theorem mem_successors : (q, label) ∈ a.successors p ↔ a.label? p q = some label := by
  rw [successors, label?]
  rcases a.row? p with _ | links
  · simp
  · exact NatMap.mem_entries_iff

theorem mem_map_successors :
    q ∈ (a.successors p).map Prod.fst ↔ ∃ label, a.label? p q = some label := by
  rw [List.mem_map]
  constructor
  · rintro ⟨⟨q', label⟩, h, rfl⟩
    exact ⟨label, mem_successors.1 h⟩
  · rintro ⟨label, h⟩
    exact ⟨(q, label), mem_successors.2 h, rfl⟩

theorem WellLinked.mem_predecessors (h : a.WellLinked) :
    p ∈ a.predecessors q ↔ ∃ label, a.label? p q = some label := by
  rw [h.agree, predecessors, entering?]
  rcases a.row? q with _ | links
  · simp
  · rw [NatMap.mem_keys_iff, Option.isSome_iff_exists]
    rfl

/-! ### Rows -/

/-- The row of a state in an array of rows. -/
def rowAt (rows : Array (Option Links)) (q : State) : Option Links := rows[q]?.join

theorem rowAt_modifyRow (rows : Array (Option Links)) (q : State) (change : Links → Links)
    (x : State) :
    rowAt (modifyRow rows q change) x =
      if x = q then (rowAt rows x).map change else rowAt rows x := by
  rw [rowAt, modifyRow, Array.getElem?_modify]
  by_cases h : x = q
  · subst h
    rw [if_pos rfl, if_pos rfl, rowAt]
    rcases rows[x]? with _ | (_ | links) <;> rfl
  · rw [if_neg (Ne.symm h), if_neg h, rowAt]

theorem size_modifyRow (rows : Array (Option Links)) (q : State) (change : Links → Links) :
    (modifyRow rows q change).size = rows.size := Array.size_modify

/-- A change of what leaves one state, and then of what enters another. -/
theorem rowAt_modifyRow_both (rows : Array (Option Links)) (p q : State)
    (out into : NatMap String → NatMap String) (x : State) :
    rowAt (modifyRow (modifyRow rows p fun links => { links with out := out links.out })
        q fun links => { links with into := into links.into }) x =
      (rowAt rows x).map fun links =>
        ⟨if x = p then out links.out else links.out,
          if x = q then into links.into else links.into⟩ := by
  rw [rowAt_modifyRow, rowAt_modifyRow]
  by_cases hp : x = p
  · by_cases hq : x = q
    · simp only [if_pos hp, if_pos hq, Option.map_map]
      rfl
    · simp only [if_pos hp, if_neg hq]
  · by_cases hq : x = q
    · simp only [if_neg hp, if_pos hq]
    · simp only [if_neg hp, if_neg hq]
      rcases rowAt rows x with _ | links <;> rfl

/-- What changes of the links of several states do not touch is as before. -/
theorem rowAt_foldl_modifyRow {β : Type} (view : Option Links → β) (change : Links → Links)
    (hview : ∀ links, view (some (change links)) = view (some links)) (qs : List State)
    (rows : Array (Option Links)) (x : State) :
    view (rowAt (qs.foldl (fun rows q => modifyRow rows q change) rows) x) =
      view (rowAt rows x) := by
  induction qs generalizing rows with
  | nil => rfl
  | cons q qs ih =>
    rw [List.foldl_cons, ih, rowAt_modifyRow]
    split
    · rcases rowAt rows x with _ | links
      · rfl
      · exact hview links
    · rfl

/-- What is erased from the links of several states is gone from those. -/
theorem find?_foldl_modifyRow (part : Links → NatMap String) (change : Links → Links)
    {q : State} (hpart : ∀ links, part (change links) = (part links).erase q)
    (qs : List State) (rows : Array (Option Links)) (x y : State) :
    ((rowAt (qs.foldl (fun rows q => modifyRow rows q change) rows) x).bind
        fun links => (part links).find? y) =
      if x ∈ qs ∧ y = q then none
      else (rowAt rows x).bind fun links => (part links).find? y := by
  induction qs generalizing rows with
  | nil => simp
  | cons s qs ih =>
    have hs : ((rowAt (modifyRow rows s change) x).bind fun links => (part links).find? y) =
        if x = s ∧ y = q then none
        else (rowAt rows x).bind fun links => (part links).find? y := by
      rw [rowAt_modifyRow]
      by_cases hx : x = s
      · rcases rowAt rows x with _ | links
        · simp
        · by_cases hy : y = q <;> simp [hx, hy, hpart, NatMap.find?_erase]
      · simp [hx]
    rw [List.foldl_cons, ih, hs]
    -- a state may stand on the list again, where there is nothing left to erase
    by_cases hx : x ∈ qs <;> by_cases hx' : x = s <;> by_cases hy : y = q <;>
      simp [hx, hx', hy]

theorem rowAt_setIfInBounds_none (rows : Array (Option Links)) (q x : State) :
    rowAt (rows.setIfInBounds q none) x = if x = q then none else rowAt rows x := by
  rw [rowAt, Array.getElem?_setIfInBounds]
  by_cases h : x = q
  · subst h
    rw [if_pos rfl, if_pos rfl]
    split <;> rfl
  · rw [if_neg (Ne.symm h), if_neg h, rowAt]

theorem size_foldl_modifyRow (change : Links → Links) (qs : List State)
    (rows : Array (Option Links)) :
    (qs.foldl (fun rows q => modifyRow rows q change) rows).size = rows.size := by
  induction qs generalizing rows with
  | nil => rfl
  | cons q qs ih => rw [List.foldl_cons, ih, size_modifyRow]

/-! ### Adding a state -/

theorem row?_addState (a : Automaton) (x : State) :
    a.addState.row? x = if x = a.nextState then some .none else a.row? x := by
  show (a.rows.push (some .none))[x]?.join = _
  rw [Array.getElem?_push]
  by_cases h : x = a.rows.size
  · rw [if_pos h, if_pos (show x = a.nextState from h)]
    rfl
  · rw [if_neg h, if_neg (show ¬ x = a.nextState from h)]
    rfl

theorem row?_nextState (a : Automaton) : a.row? a.nextState = none := by
  show a.rows[a.rows.size]?.join = none
  rw [Array.getElem?_size]
  rfl

theorem contains_addState (a : Automaton) (x : State) :
    a.addState.contains x = (x = a.nextState || a.contains x) := by
  rw [contains, row?_addState]
  by_cases h : x = a.nextState <;> simp [h, contains]

@[simp] theorem nextState_addState (a : Automaton) : a.addState.nextState = a.nextState + 1 :=
  Array.size_push _

theorem label?_addState (a : Automaton) (x y : State) :
    a.addState.label? x y = a.label? x y := by
  rw [label?, row?_addState, label?]
  split
  · rename_i h
    rw [h, row?_nextState]
    rfl
  · rfl

theorem entering?_addState (a : Automaton) (x y : State) :
    a.addState.entering? x y = a.entering? x y := by
  rw [entering?, row?_addState, entering?]
  split
  · rename_i h
    rw [h, row?_nextState]
    rfl
  · rfl

theorem WellLinked.addState (h : a.WellLinked) : a.addState.WellLinked where
  agree p q := by rw [label?_addState, entering?_addState, h.agree]
  initial_mem q hq := by
    rw [contains_addState, h.initial_mem q hq, Bool.or_true]
  final_mem q hq := by
    rw [contains_addState, h.final_mem q hq, Bool.or_true]

/-! ### Putting a transition -/

theorem row?_connect (hp : a.contains p = true) (hq : a.contains q = true) (label : String)
    (x : State) :
    (a.connect p q label).row? x = (a.row? x).map fun links =>
      ⟨if x = p then links.out.insert q label else links.out,
        if x = q then links.into.insert p label else links.into⟩ := by
  rw [connect, if_pos (by rw [hp, hq]; rfl)]
  exact rowAt_modifyRow_both a.rows p q (fun out => out.insert q label)
    (fun into => into.insert p label) x

theorem contains_connect (a : Automaton) (p q : State) (label : String) (x : State) :
    (a.connect p q label).contains x = a.contains x := by
  by_cases h : (a.contains p && a.contains q) = true
  · obtain ⟨hp, hq⟩ := Bool.and_eq_true_iff.1 h
    rw [contains, row?_connect hp hq, contains]
    rcases a.row? x with _ | links <;> rfl
  · rw [connect, if_neg h]

theorem label?_connect (hp : a.contains p = true) (hq : a.contains q = true) (label : String)
    (x y : State) :
    (a.connect p q label).label? x y =
      if x = p ∧ y = q then some label else a.label? x y := by
  rw [label?, row?_connect hp hq, label?]
  rcases hrow : a.row? x with _ | links
  · rw [if_neg]
    · rfl
    · rintro ⟨rfl, -⟩
      rw [contains, hrow] at hp
      simp at hp
  · by_cases hxp : x = p
    · by_cases hyq : y = q <;> simp [hxp, hyq, NatMap.find?_insert]
    · simp [hxp]

theorem entering?_connect (hp : a.contains p = true) (hq : a.contains q = true)
    (label : String) (x y : State) :
    (a.connect p q label).entering? x y =
      if x = p ∧ y = q then some label else a.entering? x y := by
  rw [entering?, row?_connect hp hq, entering?]
  rcases hrow : a.row? y with _ | links
  · rw [if_neg]
    · rfl
    · rintro ⟨-, rfl⟩
      rw [contains, hrow] at hq
      simp at hq
  · by_cases hyq : y = q
    · by_cases hxp : x = p <;> simp [hxp, hyq, NatMap.find?_insert]
    · simp [hyq]

@[simp] theorem initial_connect (a : Automaton) (p q : State) (label : String) :
    (a.connect p q label).initial = a.initial := by
  rw [connect]
  split <;> rfl

@[simp] theorem final_connect (a : Automaton) (p q : State) (label : String) :
    (a.connect p q label).final = a.final := by
  rw [connect]
  split <;> rfl

@[simp] theorem nextState_connect (a : Automaton) (p q : State) (label : String) :
    (a.connect p q label).nextState = a.nextState := by
  rw [connect]
  split
  · show (modifyRow (modifyRow a.rows p _) q _).size = a.rows.size
    rw [size_modifyRow, size_modifyRow]
  · rfl

theorem WellLinked.connect (h : a.WellLinked) (p q : State) (label : String) :
    (a.connect p q label).WellLinked where
  agree x y := by
    by_cases hc : (a.contains p && a.contains q) = true
    · obtain ⟨hp, hq⟩ := Bool.and_eq_true_iff.1 hc
      rw [label?_connect hp hq, entering?_connect hp hq, h.agree]
    · rw [Automaton.connect, if_neg hc, h.agree]
  initial_mem x hx := by
    rw [initial_connect] at hx
    rw [contains_connect, h.initial_mem x hx]
  final_mem x hx := by
    rw [final_connect] at hx
    rw [contains_connect, h.final_mem x hx]

/-! ### Taking a transition away -/

theorem row?_disconnect (a : Automaton) (p q x : State) :
    (a.disconnect p q).row? x = (a.row? x).map fun links =>
      ⟨if x = p then links.out.erase q else links.out,
        if x = q then links.into.erase p else links.into⟩ :=
  rowAt_modifyRow_both a.rows p q (fun out => out.erase q) (fun into => into.erase p) x

theorem contains_disconnect (a : Automaton) (p q x : State) :
    (a.disconnect p q).contains x = a.contains x := by
  rw [contains, row?_disconnect, contains]
  rcases a.row? x with _ | links <;> rfl

theorem label?_disconnect (a : Automaton) (p q x y : State) :
    (a.disconnect p q).label? x y = if x = p ∧ y = q then none else a.label? x y := by
  rw [label?, row?_disconnect, label?]
  rcases a.row? x with _ | links
  · simp
  · by_cases hxp : x = p
    · by_cases hyq : y = q <;> simp [hxp, hyq, NatMap.find?_erase]
    · simp [hxp]

theorem entering?_disconnect (a : Automaton) (p q x y : State) :
    (a.disconnect p q).entering? x y = if x = p ∧ y = q then none else a.entering? x y := by
  rw [entering?, row?_disconnect, entering?]
  rcases a.row? y with _ | links
  · simp
  · by_cases hyq : y = q
    · by_cases hxp : x = p <;> simp [hxp, hyq, NatMap.find?_erase]
    · simp [hyq]

theorem WellLinked.disconnect (h : a.WellLinked) (p q : State) :
    (a.disconnect p q).WellLinked where
  agree x y := by rw [label?_disconnect, entering?_disconnect, h.agree]
  initial_mem x hx := by rw [contains_disconnect, h.initial_mem x hx]
  final_mem x hx := by rw [contains_disconnect, h.final_mem x hx]

/-! ### Taking a state away -/

/-- The links of a neighbour of `q` once it has forgotten that it enters `q`. -/
def forgetSuccessor (q : State) (other : Links) : Links := { other with out := other.out.erase q }

/-- The links of a neighbour of `q` once it has forgotten that `q` enters it. -/
def forgetPredecessor (q : State) (other : Links) : Links :=
  { other with into := other.into.erase q }

section EraseRow

variable (rows : Array (Option Links)) (q : State) (links : Links)

theorem eraseRow_eq :
    eraseRow rows q links =
      (links.into.keys.foldl (fun rows s => modifyRow rows s (forgetSuccessor q))
        (links.out.keys.foldl (fun rows s => modifyRow rows s (forgetPredecessor q))
          rows)).setIfInBounds q none := rfl

theorem size_eraseRow : (eraseRow rows q links).size = rows.size := by
  rw [eraseRow_eq, Array.size_setIfInBounds, size_foldl_modifyRow, size_foldl_modifyRow]

theorem isSome_eraseRow (x : State) :
    (rowAt (eraseRow rows q links) x).isSome = if x = q then false else (rowAt rows x).isSome := by
  rw [eraseRow_eq, rowAt_setIfInBounds_none]
  split
  · rfl
  · rw [rowAt_foldl_modifyRow Option.isSome (forgetSuccessor q) (fun _ => rfl),
      rowAt_foldl_modifyRow Option.isSome (forgetPredecessor q) (fun _ => rfl)]

theorem out_eraseRow (x y : State) :
    ((rowAt (eraseRow rows q links) x).bind fun other => other.out.find? y) =
      if x = q ∨ x ∈ links.into.keys ∧ y = q then none
      else (rowAt rows x).bind fun other => other.out.find? y := by
  rw [eraseRow_eq, rowAt_setIfInBounds_none]
  by_cases hx : x = q
  · simp [hx]
  · rw [if_neg hx, find?_foldl_modifyRow Links.out (forgetSuccessor q) (fun _ => rfl),
      rowAt_foldl_modifyRow (fun row => row.bind fun other => other.out.find? y)
        (forgetPredecessor q) (fun _ => rfl)]
    simp only [hx, false_or]

theorem into_eraseRow (x y : State) :
    ((rowAt (eraseRow rows q links) y).bind fun other => other.into.find? x) =
      if y = q ∨ y ∈ links.out.keys ∧ x = q then none
      else (rowAt rows y).bind fun other => other.into.find? x := by
  rw [eraseRow_eq, rowAt_setIfInBounds_none]
  by_cases hy : y = q
  · simp [hy]
  · rw [if_neg hy,
      rowAt_foldl_modifyRow (fun row => row.bind fun other => other.into.find? x)
        (forgetSuccessor q) (fun _ => rfl),
      find?_foldl_modifyRow Links.into (forgetPredecessor q) (fun _ => rfl)]
    simp only [hy, false_or]

end EraseRow

theorem rows_removeState {links : Links} (hq : a.row? q = some links) :
    (a.removeState q).rows = eraseRow a.rows q links := by
  rw [removeState]
  split
  · rename_i h
    rw [hq] at h
    simp at h
  · rename_i other h
    rw [hq] at h
    cases h
    rfl

theorem removeState_of_row?_eq_none (h : a.row? q = none) : a.removeState q = a := by
  rw [removeState]
  split
  · rfl
  · rename_i links hq
    rw [h] at hq
    simp at hq

theorem nextState_removeState (a : Automaton) (q : State) :
    (a.removeState q).nextState = a.nextState := by
  rcases hq : a.row? q with _ | links
  · rw [removeState_of_row?_eq_none hq]
  · show (a.removeState q).rows.size = a.rows.size
    rw [rows_removeState hq, size_eraseRow]

theorem contains_removeState (a : Automaton) (q x : State) :
    (a.removeState q).contains x = if x = q then false else a.contains x := by
  rcases hq : a.row? q with _ | links
  · rw [removeState_of_row?_eq_none hq]
    split
    · rename_i hx
      rw [hx, contains, hq]
      rfl
    · rfl
  · show (rowAt (a.removeState q).rows x).isSome = _
    rw [rows_removeState hq, isSome_eraseRow]
    rfl

/-- The transitions of the state are gone, all others stay. -/
theorem label?_removeState (h : a.WellLinked) (q x y : State) :
    (a.removeState q).label? x y = if x = q ∨ y = q then none else a.label? x y := by
  rcases hq : a.row? q with _ | links
  · rw [removeState_of_row?_eq_none hq]
    split
    · rename_i hxy
      rcases hxy with rfl | rfl
      · rw [label?, hq]
        rfl
      · rw [h.agree, entering?, hq]
        rfl
    · rfl
  · show ((rowAt (a.removeState q).rows x).bind fun other => other.out.find? y) = _
    rw [rows_removeState hq, out_eraseRow]
    by_cases hx : x = q
    · simp [hx]
    · by_cases hy : y = q
      · -- a state that does not enter `q` has nothing to erase
        by_cases hk : x ∈ links.into.keys
        · simp [hy, hk]
        · rw [if_neg (by simp [hx, hk]), if_pos (Or.inr hy)]
          have : a.entering? x y = none := by
            rw [entering?, hy, hq]
            simpa [NatMap.mem_keys_iff] using hk
          rw [← this, ← h.agree]
          rfl
      · rw [if_neg (by simp [hx, hy]), if_neg (by simp [hx, hy])]
        rfl

theorem entering?_removeState (h : a.WellLinked) (q x y : State) :
    (a.removeState q).entering? x y = if x = q ∨ y = q then none else a.entering? x y := by
  rcases hq : a.row? q with _ | links
  · rw [removeState_of_row?_eq_none hq]
    split
    · rename_i hxy
      rcases hxy with rfl | rfl
      · rw [← h.agree, label?, hq]
        rfl
      · rw [entering?, hq]
        rfl
    · rfl
  · show ((rowAt (a.removeState q).rows y).bind fun other => other.into.find? x) = _
    rw [rows_removeState hq, into_eraseRow]
    by_cases hy : y = q
    · simp [hy]
    · by_cases hx : x = q
      · -- a state that `q` does not enter has nothing to erase
        by_cases hk : y ∈ links.out.keys
        · simp [hx, hk]
        · rw [if_neg (by simp [hy, hk]), if_pos (Or.inl hx)]
          have : a.label? x y = none := by
            rw [label?, hx, hq]
            simpa [NatMap.mem_keys_iff] using hk
          rw [← this, h.agree]
          rfl
      · rw [if_neg (by simp [hx, hy]), if_neg (by simp [hx, hy])]
        rfl

theorem initial_removeState (a : Automaton) (q : State) (hq : a.contains q = true) :
    (a.removeState q).initial = if a.initial = some q then none else a.initial := by
  rw [removeState]
  split
  · rename_i h
    rw [contains, h] at hq
    simp at hq
  · rfl

theorem final_removeState (a : Automaton) (q : State) (hq : a.contains q = true) :
    (a.removeState q).final = if a.final = some q then none else a.final := by
  rw [removeState]
  split
  · rename_i h
    rw [contains, h] at hq
    simp at hq
  · rfl

theorem WellLinked.removeState (h : a.WellLinked) (q : State) :
    (a.removeState q).WellLinked := by
  by_cases hq : a.contains q = true
  · refine ⟨fun x y => ?_, fun x hx => ?_, fun x hx => ?_⟩
    · rw [label?_removeState h, entering?_removeState h, h.agree]
    · rw [initial_removeState a q hq] at hx
      split at hx
      · simp at hx
      · rename_i hne
        rw [contains_removeState, h.initial_mem x hx, if_neg]
        rintro rfl
        exact hne hx
    · rw [final_removeState a q hq] at hx
      split at hx
      · simp at hx
      · rename_i hne
        rw [contains_removeState, h.final_mem x hx, if_neg]
        rintro rfl
        exact hne hx
  · rw [contains, Option.not_isSome_iff_eq_none] at hq
    rwa [removeState_of_row?_eq_none hq]

theorem states_removeState (a : Automaton) (q : State) :
    (a.removeState q).states = a.states.filter fun x => x ≠ q := by
  have hsize : (a.removeState q).rows.size = a.rows.size := nextState_removeState a q
  rw [states, states, hsize, List.filter_filter]
  refine List.filter_congr fun x _ => ?_
  rw [contains_removeState]
  by_cases hx : x = q <;> simp [hx]

end RegexAutomata.Automaton
