/-
Validity is that both roles are given and every state is reached.

A search for the states that can be reached keeps two things true: what is
marked can be reached (`Search.Sound`), and what leaves a marked state that is
not on the list any more is marked as well (`Search.Closed`).  So at its end
just the states that can be reached are marked (`marked_marksFrom`), which
makes `isValid` decide what it says (`WellLinked.isValid_iff`): that a finite
path of transitions leads to every state (`isValid_iff_exists_path`).

A state that is eliminated is bypassed, so the others stay reachable
(`isValid_eliminateState`).
-/
import RegexAutomata.Proofs.Elimination

namespace RegexAutomata.Automaton

variable {a b : Automaton} {t : SymbolTable} {p q x y : State}

/-! ### The search -/

namespace Search

variable {s : Search} {next : State → List State} {qs : List State}

/-- Whether a state has been reached. -/
def Marked (s : Search) (x : State) : Prop := s.marks[x]? = some true

theorem marked_visit :
    (s.visit q).Marked x ↔ s.Marked x ∨ x = q ∧ q < s.marks.size := by
  rw [visit]
  split
  · rename_i h
    obtain ⟨hq, -⟩ := Array.getElem?_eq_some_iff.1 h
    rw [Marked, Marked, Array.getElem?_setIfInBounds]
    by_cases hx : q = x
    · simp [← hx, hq]
    · simp [hx, Ne.symm hx]
  · rename_i h
    refine ⟨Or.inl, fun hx => hx.elim id ?_⟩
    rintro ⟨rfl, hx⟩
    rw [Array.getElem?_eq_getElem hx] at h
    rw [Marked, Array.getElem?_eq_getElem hx]
    simpa using h

theorem size_visit (s : Search) (q : State) : (s.visit q).marks.size = s.marks.size := by
  rw [visit]
  split
  · exact Array.size_setIfInBounds
  · rfl

theorem size_foldl_visit (s : Search) (qs : List State) :
    (qs.foldl visit s).marks.size = s.marks.size := by
  induction qs generalizing s with
  | nil => rfl
  | cons q qs ih => rw [List.foldl_cons, ih, size_visit]

theorem marked_foldl_visit :
    (qs.foldl visit s).Marked x ↔ s.Marked x ∨ x ∈ qs ∧ x < s.marks.size := by
  induction qs generalizing s with
  | nil => simp
  | cons q qs ih =>
    rw [List.foldl_cons, ih, marked_visit, size_visit, List.mem_cons, or_assoc, or_and_right]
    have hq : x = q ∧ q < s.marks.size ↔ x = q ∧ x < s.marks.size :=
      and_congr_right fun h => by rw [h]
    rw [hq]

/-- A visit puts on the list what it marks, and takes nothing off. -/
theorem mem_todo_foldl_visit (s : Search) (qs : List State) :
    (∀ x ∈ s.todo, x ∈ (qs.foldl visit s).todo) ∧
      ∀ x, (qs.foldl visit s).Marked x → s.Marked x ∨ x ∈ (qs.foldl visit s).todo := by
  induction qs generalizing s with
  | nil => exact ⟨fun x hx => hx, fun x hx => Or.inl hx⟩
  | cons q qs ih =>
    obtain ⟨hkeep, hnew⟩ := ih (s.visit q)
    have hvisit : (∀ x ∈ s.todo, x ∈ (s.visit q).todo) ∧
        ∀ x, (s.visit q).Marked x → s.Marked x ∨ x ∈ (s.visit q).todo := by
      rw [visit]
      split
      · refine ⟨fun x hx => List.mem_cons_of_mem q hx, fun x hx => ?_⟩
        rw [Marked, Array.getElem?_setIfInBounds] at hx
        by_cases hxq : q = x
        · exact Or.inr (hxq ▸ List.mem_cons_self)
        · rw [if_neg hxq] at hx
          exact Or.inl hx
      · exact ⟨fun x hx => hx, fun x hx => Or.inl hx⟩
    rw [List.foldl_cons]
    refine ⟨fun x hx => hkeep x (hvisit.1 x hx), fun x hx => ?_⟩
    rcases hnew x hx with hx | hx
    · rcases hvisit.2 x hx with hx | hx
      · exact Or.inl hx
      · exact Or.inr (hkeep x hx)
    · exact Or.inr hx

/-- What is marked or on the list has some property. -/
def Sound (P : State → Prop) (s : Search) : Prop := (∀ x, s.Marked x → P x) ∧ ∀ x ∈ s.todo, P x

/-- What leaves a marked state is marked, or the state is still on the list. -/
def Closed (next : State → List State) (s : Search) : Prop :=
  ∀ x, s.Marked x → x ∈ s.todo ∨ ∀ y ∈ next x, y < s.marks.size → s.Marked y

theorem Sound.foldl_visit {P : State → Prop} (h : Sound P s) (hqs : ∀ q ∈ qs, P q) :
    Sound P (qs.foldl visit s) := by
  induction qs generalizing s with
  | nil => exact h
  | cons q qs ih =>
    obtain ⟨hq, hqs⟩ := List.forall_mem_cons.1 hqs
    refine ih ⟨fun x hx => ?_, fun x hx => ?_⟩ hqs
    · rcases marked_visit.1 hx with hx | ⟨rfl, -⟩
      · exact h.1 x hx
      · exact hq
    · rw [visit] at hx
      split at hx
      · rcases List.mem_cons.1 hx with rfl | hx
        · exact hq
        · exact h.2 x hx
      · exact h.2 x hx

/-- Only what can be reached is marked in the end. -/
theorem Sound.finish {P : State → Prop} (h : Sound P s)
    (hnext : ∀ p, P p → ∀ q ∈ next p, P q) (hx : (finish next s)[x]? = some true) : P x := by
  fun_induction Search.finish next s with
  | case1 s htodo => exact h.1 x hx
  | case2 s q rest htodo ih =>
    have hq : P q := h.2 q (htodo ▸ List.mem_cons_self)
    refine ih (Sound.foldl_visit ⟨h.1, fun x hx => ?_⟩ fun r hr => hnext q hq r hr) hx
    exact h.2 x (htodo ▸ List.mem_cons_of_mem q hx)

/-- Whatever leaves a marked state is marked in the end, and marks stay. -/
theorem Closed.finish (h : Closed next s) :
    (∀ x, s.Marked x → (Search.finish next s)[x]? = some true) ∧
      ∀ x, (Search.finish next s)[x]? = some true → ∀ y ∈ next x, y < s.marks.size →
        (Search.finish next s)[y]? = some true := by
  -- on the search: a state is taken from the list only when all it leads to is marked
  fun_induction Search.finish next s with
  | case1 s htodo =>
    refine ⟨fun x hx => hx, fun x hx => ?_⟩
    rcases h x hx with hmem | hclosed
    · rw [htodo] at hmem
      simp at hmem
    · exact hclosed
  | case2 s q rest htodo ih =>
    obtain ⟨hkeep, hnew⟩ := mem_todo_foldl_visit ⟨s.marks, rest⟩ (next q)
    have hsize := size_foldl_visit ⟨s.marks, rest⟩ (next q)
    have hstep : Closed next ((next q).foldl visit ⟨s.marks, rest⟩) := by
      intro x hx
      rcases hnew x hx with hold | hmem
      · rcases h x hold with hmem | hclosed
        · rw [htodo] at hmem
          rcases List.mem_cons.1 hmem with rfl | hmem
          · -- the state that is taken: its successors have just been visited
            refine Or.inr fun y hy hlt => ?_
            rw [hsize] at hlt
            exact marked_foldl_visit.2 (Or.inr ⟨hy, hlt⟩)
          · exact Or.inl (hkeep x hmem)
        · refine Or.inr fun y hy hlt => ?_
          rw [hsize] at hlt
          exact marked_foldl_visit.2 (Or.inl (hclosed y hy hlt))
      · exact Or.inl hmem
    obtain ⟨hmarks, hclosed⟩ := ih hstep
    refine ⟨fun x hx => hmarks x (marked_foldl_visit.2 (Or.inl hx)), fun x hx y hy hlt => ?_⟩
    exact hclosed x hx y hy (hsize.symm ▸ hlt)

end Search

/-! ### Validity -/

/-- A transition leads from one state to another. -/
def Leads (a : Automaton) (p q : State) : Prop := ∃ label, a.label? p q = some label

/-- A state can be reached from another one. -/
def Reaches (a : Automaton) : State → State → Prop := Relation.ReflTransGen a.Leads

theorem WellLinked.lt_size_of_leads (h : a.WellLinked) (hpq : a.Leads p q) : q < a.rows.size := by
  obtain ⟨label, hlabel⟩ := hpq
  exact lt_nextState (h.contains_of_label? hlabel).2

/-- Just the states that can be reached are marked. -/
theorem WellLinked.marked_marksFrom (h : a.WellLinked) (hq : a.contains q = true) (x : State) :
    (a.marksFrom q)[x]? = some true ↔ a.Reaches q x := by
  have hlt : q < (Array.replicate a.rows.size false).size := by
    rw [Array.size_replicate]
    exact lt_nextState hq
  -- the search starts with the one state marked and on the list
  have hnone : ∀ x, ¬ Search.Marked ⟨Array.replicate a.rows.size false, []⟩ x := by
    intro x hx
    rw [Search.Marked, Array.getElem?_replicate] at hx
    split at hx <;> cases hx
  have hstart : ∀ x, (Search.visit ⟨Array.replicate a.rows.size false, []⟩ q).Marked x ↔ x = q := by
    intro x
    rw [Search.marked_visit]
    exact ⟨fun hx => hx.elim (fun hx => absurd hx (hnone x)) And.left, fun hx => Or.inr ⟨hx, hlt⟩⟩
  constructor
  · intro hx
    refine Search.Sound.finish (P := a.Reaches q) ⟨fun x hx => ?_, fun x hx => ?_⟩
      (fun p hp r hr => hp.tail (mem_map_successors.1 hr)) hx
    · rw [(hstart x).1 hx]
      exact Relation.ReflTransGen.refl
    · rw [Search.visit] at hx
      split at hx
      · rw [List.mem_singleton.1 hx]
        exact Relation.ReflTransGen.refl
      · simp at hx
  · intro hx
    have hclosed : Search.Closed (fun p => (a.successors p).map Prod.fst)
        (Search.visit ⟨Array.replicate a.rows.size false, []⟩ q) := by
      intro x hx
      have hmem := Search.mem_todo_foldl_visit ⟨Array.replicate a.rows.size false, []⟩ [q]
      exact (hmem.2 x hx).elim (fun hx => absurd hx (hnone x)) Or.inl
    obtain ⟨hmarks, hnext⟩ := hclosed.finish
    induction hx with
    | refl => exact hmarks q ((hstart q).2 rfl)
    | tail _ hleads ih =>
      refine hnext _ ih _ (mem_map_successors.2 hleads) ?_
      rw [Search.size_visit, Array.size_replicate]
      exact h.lt_size_of_leads hleads

/-- An automaton is valid if both roles are given and every state can be
reached from the initial one. -/
theorem WellLinked.isValid_iff (h : a.WellLinked) :
    a.isValid = true ↔
      ∃ i f, a.initial = some i ∧ a.final = some f ∧
        ∀ q, a.contains q = true → a.Reaches i q := by
  rw [isValid]
  rcases hi : a.initial with _ | i
  · simp
  · rcases hf : a.final with _ | f
    · simp
    · simp only [List.all_eq_true, decide_eq_true_eq, mem_states,
        h.marked_marksFrom (h.initial_mem i hi)]
      constructor
      · intro hall
        exact ⟨i, f, rfl, rfl, hall⟩
      · rintro ⟨i', f', hi', -, hall⟩
        cases hi'
        exact hall

/-! ### Paths -/

/-- The automaton has these transitions, one after another, from one state to another. -/
inductive Path (a : Automaton) : State → List (State × State × String) → State → Prop
  /-- No transition leads away. -/
  | nil (p : State) : Path a p [] p
  /-- A transition comes before a path. -/
  | cons {p q r : State} {label : String} {steps : List (State × State × String)}
      (h : a.label? p q = some label) (hsteps : Path a q steps r) :
      Path a p ((p, q, label) :: steps) r

theorem Path.reaches {steps : List (State × State × String)} (h : a.Path p steps q) :
    a.Reaches p q := by
  induction h with
  | nil p => exact .refl
  | cons h _ ih => exact .head ⟨_, h⟩ ih

theorem reaches_iff_exists_path : a.Reaches p q ↔ ∃ steps, a.Path p steps q := by
  constructor
  · intro h
    induction h using Relation.ReflTransGen.head_induction_on with
    | refl => exact ⟨[], .nil q⟩
    | head hleads _ ih =>
      obtain ⟨label, hlabel⟩ := hleads
      obtain ⟨steps, hsteps⟩ := ih
      exact ⟨_, .cons hlabel hsteps⟩
  · rintro ⟨steps, hsteps⟩
    exact hsteps.reaches

/-- **Validity is reachability.**  An automaton that can be made is valid exactly if both roles
are given and a finite path of transitions, whatever their labels, leads from the initial state
to every state. -/
theorem isValid_iff_exists_path (h : a.Reachable) :
    a.isValid = true ↔
      ∃ i f, a.initial = some i ∧ a.final = some f ∧
        ∀ q, a.contains q = true → ∃ steps, a.Path i steps q := by
  rw [h.wellLinked.isValid_iff]
  simp only [reaches_iff_exists_path]

/-- With a cycle and a loop that reads nothing every state has its path; without the only
transition into the cycle the states on it have none. -/
theorem isValid_iff_exists_path_cut :
    let a := (ofRegex (.star (.operand (.char 'a')))).connect 1 1 "∅"
    let b := a.disconnect 2 0
    a.Reachable ∧ (∀ q, a.contains q = true → ∃ steps, a.Path 2 steps q) ∧
      b.Reachable ∧ ¬ ∀ q, b.contains q = true → ∃ steps, b.Path 2 steps q := by
  intro a b
  have ha : a.Reachable := (Reachable.ofRegex _).connect (by cbv) (by cbv)
  have hb : b.Reachable := .perform (r := .disconnect 2 0) ha (perform_eq_ok_iff.2 ⟨rfl, rfl⟩)
  have hvalid : a.isValid = true := by
    subst a
    cbv
  have hcut : b.isValid = false := by
    subst b a
    cbv
  refine ⟨ha, ?_, hb, fun hall => ?_⟩
  · obtain ⟨i, f, hi, -, hall⟩ := (isValid_iff_exists_path ha).1 hvalid
    cases hi
    exact hall
  · have htrue := (isValid_iff_exists_path hb).2 ⟨2, 3, rfl, rfl, hall⟩
    rw [hcut] at htrue
    cases htrue

/-! ### Elimination -/

/-- A way that leads through a state that is eliminated leads past it. -/
theorem leads_eliminateState {ws : List Rewrite} (h : a.WellLinked)
    (hb : a.eliminateState t q = .ok (ws, b)) (hx : x ≠ q) (hy : y ≠ q) :
    b.Leads x y ↔ a.Leads x y ∨ a.Leads x q ∧ a.Leads q y := by
  have hlabel := label?_eliminateState h hb x y
  obtain ⟨-, hws, -⟩ := eliminateState_eq_ok_iff.1 hb
  rw [if_neg (not_or.2 ⟨hx, hy⟩)] at hlabel
  rw [Leads, hlabel]
  constructor
  · rintro ⟨label, hor⟩
    rcases Option.or_eq_some_iff.1 hor with hw | ⟨-, hold⟩
    · obtain ⟨hs, ht, -⟩ := detour_of_mem hws (mem_of_written? hw)
      exact Or.inr ⟨((mem_sources h).1 hs).2, (mem_targets.1 ht).2⟩
    · exact Or.inl ⟨label, hold⟩
  · rintro (⟨label, hold⟩ | ⟨hs, ht⟩)
    · rcases written? ws x y with _ | new
      · exact ⟨label, hold⟩
      · exact ⟨new, rfl⟩
    · obtain ⟨label, hmem⟩ :=
        exists_mem_rewritesAround hws ((mem_sources h).2 ⟨hx, hs⟩) (mem_targets.2 ⟨hy, ht⟩)
      rcases hw : written? ws x y with _ | new
      · exact absurd ⟨rfl, rfl⟩ (written?_eq_none_iff.1 hw _ hmem)
      · exact ⟨new, rfl⟩

theorem reaches_eliminateState {ws : List Rewrite} (h : a.WellLinked)
    (hb : a.eliminateState t q = .ok (ws, b)) {i : State} (hi : i ≠ q)
    (hreach : a.Reaches i x) (hx : x ≠ q) : b.Reaches i x := by
  -- the state itself is entered from one that stays
  have key : ∀ z, a.Reaches i z →
      (z ≠ q → b.Reaches i z) ∧ (z = q → ∃ p, p ≠ q ∧ b.Reaches i p ∧ a.Leads p q) := by
    intro z hz
    induction hz with
    | refl => exact ⟨fun _ => .refl, fun hq => absurd hq hi⟩
    | @tail y z _ hleads ih =>
      by_cases hy : y = q
      · -- the way comes through `q`: from the state before it there is a detour
        obtain ⟨p, hp, hpath, hpq⟩ := ih.2 hy
        rw [hy] at hleads
        refine ⟨fun hz => ?_, fun _ => ⟨p, hp, hpath, hpq⟩⟩
        exact hpath.tail ((leads_eliminateState h hb hp hz).2 (Or.inr ⟨hpq, hleads⟩))
      · refine ⟨fun hz => ?_, fun hz => ?_⟩
        · exact (ih.1 hy).tail ((leads_eliminateState h hb hy hz).2 (Or.inl hleads))
        · rw [hz] at hleads
          exact ⟨y, hy, ih.1 hy, hleads⟩
  exact (key x hreach).1 hx

/-- What is left after an elimination is valid. -/
theorem isValid_eliminateState {ws : List Rewrite} (h : a.WellLinked)
    (hb : a.eliminateState t q = .ok (ws, b)) : b.isValid = true := by
  obtain ⟨hcheck, -, -⟩ := eliminateState_eq_ok_iff.1 hb
  obtain ⟨i, f, hif, hvalid, -, hqi, -⟩ := checkInner_eq_ok_iff.1 hcheck
  obtain ⟨hi, hf, -⟩ := terminals_eq_ok_iff.1 hif
  obtain ⟨hinitial, hfinal⟩ := roles_eliminateState hb
  obtain ⟨i', f', hi', -, hall⟩ := h.isValid_iff.1 hvalid
  rw [hi] at hi'
  cases hi'
  refine (h.eliminateState hb).isValid_iff.2 ⟨i, f, hinitial.trans hi, hfinal.trans hf, ?_⟩
  intro x hx
  rw [contains_eliminateState hb] at hx
  split at hx
  · simp at hx
  · rename_i hxq
    exact reaches_eliminateState h hb hqi.symm (hall x hx) hxq

end RegexAutomata.Automaton
