/-
What folding a state into another one does to every transition.

The transitions of the absorbed state are written once more for the state that is kept.
Several of them may come to join the same two states, and then the one that is written
last stays: a transition that enters comes after those that leave, and these come by the
states that they enter (`written?_entries`).  So every label afterwards can be told from
the labels before (`WellLinked.folds_merge`).

Each pair of states that comes to be joined is joined once (`WellLinked.joinedPairs_merge`).
Where no two transitions come to join the same two states, all of them stay
(`WellLinked.transitions_merge`).
-/
import Mathlib.Data.List.Dedup
import RegexAutomata.Proofs.Histories

namespace RegexAutomata.Automaton

variable {a : Automaton} {p q keep absorb : State} {label : String} {links : Links}

/-! ### The last of several writes -/

/-- What is written later counts first. -/
theorem written?_append (vs ws : List Rewrite) (p q : State) :
    written? (vs ++ ws) p q = (written? ws p q).or (written? vs p q) := by
  induction vs with
  | nil => rw [List.nil_append, written?, Option.or_none]
  | cons v vs ih => rw [List.cons_append, written?, ih, Option.or_assoc, written?]

/-- Entries are written in the order of their keys.  So of two keys for which the same state
is entered the greater one counts first. -/
theorem written?_entries (m : NatMap String) (p : State) (target : State → State)
    {q lower upper : State} (hle : lower ≤ upper)
    (htarget : ∀ k, target k = q ↔ k = lower ∨ k = upper) :
    written? (m.entries.map fun e => ⟨p, target e.1, e.2⟩) p q =
      (m.find? upper).or (m.find? lower) := by
  obtain ⟨es, h⟩ := m
  simp only [NatMap.find?]
  induction es with
  | nil => rfl
  | cons d ds ih =>
    obtain ⟨hd, hds⟩ := List.pairwise_cons.1 h
    have hlater : ∀ k, k ≤ d.1 → (ds.find? fun e => e.1 = k) = none := by
      intro k hk
      rw [List.find?_eq_none]
      intro e he hek
      exact absurd (hd e he) (Nat.not_lt_of_le (of_decide_eq_true hek ▸ hk))
    rw [List.map_cons, written?, ih hds, List.find?_cons, List.find?_cons]
    by_cases hupper : d.1 = upper
    · -- neither of the two keys comes later
      rw [hlater upper (Nat.le_of_eq hupper.symm), hlater lower (hupper ▸ hle),
        if_pos ⟨rfl, (htarget d.1).2 (Or.inr hupper)⟩, decide_eq_true hupper]
      rfl
    · rw [decide_eq_false hupper]
      by_cases hlower : d.1 = lower
      · rw [hlater lower (Nat.le_of_eq hlower.symm),
          if_pos ⟨rfl, (htarget d.1).2 (Or.inl hlower)⟩, decide_eq_true hlower, Option.map_none,
          Option.or_none]
        rfl
      · rw [if_neg fun heq => ((htarget d.1).1 heq.2).elim hlower hupper,
          decide_eq_false hlower, Option.or_none]

/-! ### What comes to stand for what -/

theorem redirect_eq_keep_iff {x : State} :
    redirect keep absorb x = keep ↔ x = keep ∨ x = absorb := by
  by_cases hx : x = absorb
  · simp [hx]
  · rw [redirect_of_ne hx]
    exact ⟨Or.inl, fun h => h.resolve_right hx⟩

theorem redirect_eq_iff (hq : q ≠ keep) (hqa : q ≠ absorb) {x : State} :
    redirect keep absorb x = q ↔ x = q := by
  by_cases hx : x = absorb
  · rw [hx, redirect_absorb]
    exact ⟨fun h => absurd h.symm hq, fun h => absurd h.symm hqa⟩
  · rw [redirect_of_ne hx]

/-- A role goes with the state that has it. -/
theorem map_redirect (role : Option State) :
    role.map (redirect keep absorb) = if role = some absorb then some keep else role := by
  rcases role with _ | x
  · rfl
  · by_cases hx : x = absorb
    · rw [hx, if_pos rfl, Option.map_some, redirect_absorb]
    · rw [if_neg (hx ∘ Option.some.inj), Option.map_some, redirect_of_ne hx]

/-! ### What is written for the state that is kept -/

section Moved

variable (h : a.WellLinked) (ha : a.row? absorb = some links)
include h ha

theorem WellLinked.written?_moved_leaving (hq : q ≠ keep) (hqa : q ≠ absorb) :
    written? (moved keep absorb links) keep q = a.label? absorb q := by
  refine written?_eq fun label => ?_
  rw [h.mem_moved_iff ha]
  constructor
  · rintro ⟨x, y, hl, hor, -, hy⟩
    obtain rfl := (redirect_eq_iff hq hqa).1 hy
    rwa [hor.resolve_right hqa] at hl
  · intro hl
    exact ⟨absorb, q, hl, Or.inl rfl, redirect_absorb _ _, redirect_of_ne hqa⟩

theorem WellLinked.written?_moved_entering (hp : p ≠ keep) (hpa : p ≠ absorb) :
    written? (moved keep absorb links) p keep = a.label? p absorb := by
  refine written?_eq fun label => ?_
  rw [h.mem_moved_iff ha]
  constructor
  · rintro ⟨x, y, hl, hor, hx, -⟩
    obtain rfl := (redirect_eq_iff hp hpa).1 hx
    rwa [hor.resolve_left hpa] at hl
  · intro hl
    exact ⟨p, absorb, hl, Or.inr rfl, redirect_of_ne hpa, redirect_absorb _ _⟩

theorem WellLinked.written?_moved_elsewhere (hp : p ≠ keep) (hpa : p ≠ absorb) (hq : q ≠ keep)
    (hqa : q ≠ absorb) : written? (moved keep absorb links) p q = none := by
  refine written?_eq fun label => ?_
  rw [h.mem_moved_iff ha]
  constructor
  · rintro ⟨x, y, -, hor, hx, hy⟩
    obtain rfl := (redirect_eq_iff hp hpa).1 hx
    obtain rfl := (redirect_eq_iff hq hqa).1 hy
    exact absurd hor (not_or.2 ⟨hpa, hqa⟩)
  · intro hl
    cases hl

/-- Around the state that is kept the transition that entered the absorbed one is written
last, and before it those that left the absorbed one. -/
theorem WellLinked.written?_moved_loop (hne : keep ≠ absorb) :
    written? (moved keep absorb links) keep keep =
      (a.label? keep absorb).or
        ((a.label? absorb (max keep absorb)).or (a.label? absorb (min keep absorb))) := by
  have hout : ∀ z, links.out.find? z = a.label? absorb z := fun z => by
    rw [label?, ha, Option.bind_some]
  have hentering : written? ((links.into.entries.filter fun e => e.1 ≠ absorb).map
      fun e => ⟨e.1, keep, e.2⟩) keep keep = a.label? keep absorb := by
    refine written?_eq fun label => ?_
    rw [h.agree, entering?, ha, Option.bind_some, ← NatMap.mem_entries_iff, List.mem_map]
    constructor
    · rintro ⟨e, he, heq⟩
      cases heq
      exact (List.mem_filter.1 he).1
    · intro he
      exact ⟨_, List.mem_filter.2 ⟨he, decide_eq_true hne⟩, rfl⟩
  have hleaving : written? (links.out.entries.map
      fun e => ⟨keep, if e.1 = absorb then keep else e.1, e.2⟩) keep keep =
        (a.label? absorb (max keep absorb)).or (a.label? absorb (min keep absorb)) := by
    rw [← hout, ← hout]
    refine written?_entries links.out keep (redirect keep absorb) min_le_max fun k => ?_
    rw [redirect_eq_keep_iff]
    rcases Nat.le_total keep absorb with hle | hle
    · rw [min_eq_left hle, max_eq_right hle]
    · rw [min_eq_right hle, max_eq_left hle, or_comm]
  rw [moved, written?_append, hentering, hleaving]

end Moved

/-! ### Pairs of states that are joined -/

/-- The pairs of states that are joined. -/
def joinedPairs (a : Automaton) : List (State × State) := a.transitions.map fun t => (t.1, t.2.1)

theorem length_joinedPairs (a : Automaton) : a.joinedPairs.length = a.transitionCount :=
  List.length_map _

theorem nodup_joinedPairs (a : Automaton) : a.joinedPairs.Nodup := by
  rw [joinedPairs, List.nodup_iff_pairwise_ne, List.pairwise_map]
  refine (pairwise_transitions a).imp fun hor heq => ?_
  rw [Prod.mk.injEq] at heq
  rcases hor with hlt | ⟨-, hlt⟩
  · exact Nat.ne_of_lt hlt heq.1
  · exact Nat.ne_of_lt hlt heq.2

theorem WellLinked.mem_joinedPairs (h : a.WellLinked) :
    (p, q) ∈ a.joinedPairs ↔ ∃ label, a.label? p q = some label := by
  rw [joinedPairs, List.mem_map]
  constructor
  · rintro ⟨⟨x, y, label⟩, hmem, heq⟩
    cases heq
    exact ⟨label, h.mem_transitions.1 hmem⟩
  · rintro ⟨label, hl⟩
    exact ⟨(p, q, label), h.mem_transitions.2 hl, rfl⟩

/-- Transitions are known by their labels. -/
theorem WellLinked.transitions_perm (h : a.WellLinked) {ts : List (State × State × String)}
    (hts : ts.Nodup) (hmem : ∀ p q label, (p, q, label) ∈ ts ↔ a.label? p q = some label) :
    a.transitions.Perm ts := by
  refine (List.perm_ext_iff_of_nodup a.nodup_transitions hts).2 ?_
  rintro ⟨p, q, label⟩
  rw [h.mem_transitions, hmem]

/-- The pairs of states that are joined, with one state in the place of the absorbed one.  A
pair occurs more often where several transitions come to join the same two states. -/
def redirected (keep absorb : State) (a : Automaton) : List (State × State) :=
  a.joinedPairs.map (Prod.map (redirect keep absorb) (redirect keep absorb))

/-! ### Every label afterwards -/

/-- One automaton is another one with a state folded into a different one.  Where several
transitions come to join the same two states, only one of their labels stays. -/
structure Folds (keep absorb : State) (a b : Automaton) : Prop where
  states_eq : b.states = a.states.filter fun x => x ≠ absorb
  nextState_eq : b.nextState = a.nextState
  initial_eq : b.initial = a.initial.map (redirect keep absorb)
  final_eq : b.final = a.final.map (redirect keep absorb)
  /-- Nothing leaves or enters the absorbed state. -/
  gone : ∀ x, b.label? absorb x = none ∧ b.label? x absorb = none
  elsewhere : ∀ p q, p ≠ keep → p ≠ absorb → q ≠ keep → q ≠ absorb →
    b.label? p q = a.label? p q
  leaving : ∀ q, q ≠ keep → q ≠ absorb →
    b.label? keep q = (a.label? absorb q).or (a.label? keep q)
  entering : ∀ p, p ≠ keep → p ≠ absorb →
    b.label? p keep = (a.label? p absorb).or (a.label? p keep)
  /-- Four transitions may come to join the state with itself.  Of the two that left the
  absorbed state the one that entered the state with the greater number comes first. -/
  loop : b.label? keep keep =
    (a.label? keep absorb).or
      (((a.label? absorb (max keep absorb)).or (a.label? absorb (min keep absorb))).or
        (a.label? keep keep))

section Merge

variable (h : a.WellLinked) (hne : keep ≠ absorb) (hk : a.contains keep = true)
  (ha : a.contains absorb = true)
include h hne hk ha

theorem WellLinked.folds_merge : Folds keep absorb a (a.merge keep absorb) := by
  obtain ⟨links, hlinks⟩ := Option.isSome_iff_exists.1 ha
  have hlabel := h.label?_merge_eq hne hk hlinks
  have hlinked := h.merge keep absorb
  have hgone : (a.merge keep absorb).contains absorb = false := by
    rw [contains_merge hne hk ha, if_pos rfl]
  obtain ⟨hinitial, hfinal⟩ := roles_merge hne hk ha
  exact
    { states_eq := by
        rw [merge_eq hlinks hne hk, ← states_removeState]
        exact states_write _ _
      nextState_eq := nextState_merge hne hk ha
      initial_eq := by rw [hinitial, map_redirect]
      final_eq := by rw [hfinal, map_redirect]
      gone := fun x => ⟨hlinked.label?_eq_none_of_contains (Or.inl hgone),
        hlinked.label?_eq_none_of_contains (Or.inr hgone)⟩
      elsewhere := fun p q hp hpa hq hqa => by
        rw [hlabel, h.written?_moved_elsewhere hlinks hp hpa hq hqa,
          if_neg (not_or.2 ⟨hpa, hqa⟩), Option.none_or]
      leaving := fun q hq hqa => by
        rw [hlabel, h.written?_moved_leaving hlinks hq hqa, if_neg (not_or.2 ⟨hne, hqa⟩)]
      entering := fun p hp hpa => by
        rw [hlabel, h.written?_moved_entering hlinks hp hpa, if_neg (not_or.2 ⟨hpa, hne⟩)]
      loop := by
        rw [hlabel, h.written?_moved_loop hlinks hne, if_neg (not_or.2 ⟨hne, hne⟩),
          Option.or_assoc] }

/-- A label that stays is one of those that have come to join the two states. -/
theorem WellLinked.exists_label?_of_merge (hl : (a.merge keep absorb).label? p q = some label) :
    ∃ x y, a.label? x y = some label ∧
      redirect keep absorb x = p ∧ redirect keep absorb y = q := by
  obtain ⟨links, hlinks⟩ := Option.isSome_iff_exists.1 ha
  rw [h.label?_merge_eq hne hk hlinks, Option.or_eq_some_iff] at hl
  obtain hl | ⟨-, hl⟩ := hl
  · obtain ⟨x, y, hxy, -, hx, hy⟩ := (h.mem_moved_iff hlinks).1 (mem_of_written? hl)
    exact ⟨x, y, hxy, hx, hy⟩
  · split at hl
    · cases hl
    · rename_i hpq
      obtain ⟨hp, hq⟩ := not_or.1 hpq
      exact ⟨p, q, hl, redirect_of_ne hp, redirect_of_ne hq⟩

/-- Two states that were joined are joined afterwards, perhaps by another label. -/
theorem WellLinked.exists_label?_merge (hl : a.label? p q = some label) :
    ∃ other, (a.merge keep absorb).label? (redirect keep absorb p) (redirect keep absorb q) =
      some other := by
  obtain ⟨links, hlinks⟩ := Option.isSome_iff_exists.1 ha
  rw [← Option.isSome_iff_exists, h.label?_merge_eq hne hk hlinks, Option.isSome_or,
    Bool.or_eq_true]
  by_cases hpq : p = absorb ∨ q = absorb
  · -- it is among those that are written
    refine Or.inl (Option.isSome_iff_ne_none.2 fun hnone => ?_)
    exact written?_eq_none_iff.1 hnone _ ((h.mem_moved_iff hlinks).2 ⟨p, q, hl, hpq, rfl, rfl⟩)
      ⟨rfl, rfl⟩
  · obtain ⟨hp, hq⟩ := not_or.1 hpq
    rw [redirect_of_ne hp, redirect_of_ne hq, if_neg hpq, hl]
    exact Or.inr rfl

/-- Each of the pairs that come to be joined is joined once. -/
theorem WellLinked.joinedPairs_merge :
    (a.merge keep absorb).joinedPairs.Perm (a.redirected keep absorb).dedup := by
  refine (List.perm_ext_iff_of_nodup (nodup_joinedPairs _) (List.nodup_dedup _)).2 ?_
  rintro ⟨p, q⟩
  rw [(h.merge keep absorb).mem_joinedPairs, List.mem_dedup, redirected, List.mem_map]
  constructor
  · rintro ⟨label, hl⟩
    obtain ⟨x, y, hxy, hx, hy⟩ := h.exists_label?_of_merge hne hk ha hl
    exact ⟨(x, y), h.mem_joinedPairs.2 ⟨label, hxy⟩, Prod.ext hx hy⟩
  · rintro ⟨⟨x, y⟩, hmem, heq⟩
    cases heq
    obtain ⟨label, hl⟩ := h.mem_joinedPairs.1 hmem
    exact h.exists_label?_merge hne hk ha hl

/-- Where no two transitions come to join the same two states, all of them stay. -/
theorem WellLinked.transitions_merge (hapart : (a.redirected keep absorb).Nodup) :
    (a.merge keep absorb).transitions.Perm (a.transitions.map fun t =>
      (redirect keep absorb t.1, redirect keep absorb t.2.1, t.2.2)) := by
  refine (h.merge keep absorb).transitions_perm ?_ fun p q label => ?_
  · refine List.Nodup.of_map (fun t => (t.1, t.2.1)) ?_
    rw [redirected, joinedPairs, List.map_map] at hapart
    rw [List.map_map]
    exact hapart
  · rw [List.mem_map]
    constructor
    · rintro ⟨⟨x, y, text⟩, hmem, heq⟩
      cases heq
      have hold := h.mem_transitions.1 hmem
      obtain ⟨other, hother⟩ := h.exists_label?_merge hne hk ha hold
      obtain ⟨x', y', hnew, hx, hy⟩ := h.exists_label?_of_merge hne hk ha hother
      -- the transition that stays is the only one that may
      have heq : (x', y') = (x, y) := List.inj_on_of_nodup_map hapart
        (h.mem_joinedPairs.2 ⟨other, hnew⟩) (h.mem_joinedPairs.2 ⟨text, hold⟩) (Prod.ext hx hy)
      cases heq
      rw [hother, ← hnew, hold]
    · intro hl
      obtain ⟨x, y, hxy, rfl, rfl⟩ := h.exists_label?_of_merge hne hk ha hl
      exact ⟨(x, y, label), h.mem_transitions.2 hxy, rfl⟩

end Merge

/-- **Folding a state into another one.**  Two different states of any automaton can be
folded into one.  What becomes of the states, the roles and every label is told by `Folds`,
also where several transitions come to join the same two states.  There are as many
transitions afterwards as there are pairs of states that come to be joined; where no two
transitions come to join the same pair, each stays with its label. -/
theorem effect_of_merge (h : a.Reachable) (hne : keep ≠ absorb) (hk : a.contains keep = true)
    (ha : a.contains absorb = true) :
    ∃ b, a.perform (.merge keep absorb) = .ok b ∧ Folds keep absorb a b ∧
      b.transitionCount = (a.redirected keep absorb).dedup.length ∧
      ((a.redirected keep absorb).Nodup →
        b.transitions.Perm (a.transitions.map fun t =>
          (redirect keep absorb t.1, redirect keep absorb t.2.1, t.2.2)) ∧
        b.transitionCount = a.transitionCount) := by
  have hgranted : a.fault? (.merge keep absorb) = none := by
    rw [fault?, hk, ha]
    simp [hne]
  refine ⟨a.merge keep absorb, perform_eq_ok_iff.2 ⟨hgranted, rfl⟩,
    h.wellLinked.folds_merge hne hk ha, ?_, fun hapart => ?_⟩
  · rw [← length_joinedPairs, (h.wellLinked.joinedPairs_merge hne hk ha).length_eq]
  · have hperm := h.wellLinked.transitions_merge hne hk ha hapart
    refine ⟨hperm, ?_⟩
    rw [transitionCount, hperm.length_eq, List.length_map, transitionCount]

/-- Of three transitions that come to join a state with itself one stays, and of two that
come to enter it.  Where none of them meet all stay. -/
theorem effect_of_merge_meeting :
    let cs : List Change := [.request .addState, .request .addState, .request .addState,
      .request (.connect 0 0 "a"), .request (.connect 1 0 "b"), .request (.connect 1 1 "c"),
      .request (.connect 1 2 "d"), .request (.connect 2 1 "e"), .request (.connect 2 0 "f"),
      .request (.setFinal (some 1))]
    let ds : List Change := [.request .addState, .request .addState, .request .addState,
      .request (.connect 0 1 "a"), .request (.connect 1 2 "b"), .request (.connect 2 1 "c")]
    (∃ b, (empty.afterAll cs).perform (.merge 0 1) = .ok b ∧ b.states = [0, 2] ∧
      b.final = some 0 ∧ b.label? 0 0 = some "c" ∧ b.label? 0 2 = some "d" ∧
      b.label? 2 0 = some "e" ∧ b.transitionCount = 3) ∧
    ∃ b, (empty.afterAll ds).perform (.merge 0 1) = .ok b ∧
      b.transitions.Perm [(0, 0, "a"), (0, 2, "b"), (2, 0, "c")] := by
  intro cs ds
  have hne : (0 : State) ≠ 1 := by decide
  constructor
  · have hk : (empty.afterAll cs).contains 0 = true := by
      subst cs
      cbv
    have ha : (empty.afterAll cs).contains 1 = true := by
      subst cs
      cbv
    obtain ⟨b, hb, hfolds, hcount, -⟩ :=
      effect_of_merge (Reachable.empty.afterAll cs) hne hk ha
    refine ⟨b, hb, hfolds.states_eq.trans ?_, hfolds.final_eq.trans ?_, hfolds.loop.trans ?_,
      (hfolds.leaving 2 (by decide) (by decide)).trans ?_,
      (hfolds.entering 2 (by decide) (by decide)).trans ?_, hcount.trans ?_⟩ <;>
    · subst cs
      cbv
  · have hk : (empty.afterAll ds).contains 0 = true := by
      subst ds
      cbv
    have ha : (empty.afterAll ds).contains 1 = true := by
      subst ds
      cbv
    obtain ⟨b, hb, -, -, happart⟩ :=
      effect_of_merge (Reachable.empty.afterAll ds) hne hk ha
    have hpairs : ((empty.afterAll ds).redirected 0 1) = [(0, 0), (0, 2), (2, 0)] := by
      subst ds
      cbv
    have htransitions : (empty.afterAll ds).transitions =
        [(0, 1, "a"), (1, 2, "b"), (2, 1, "c")] := by
      subst ds
      cbv
    have hperm := (happart (hpairs ▸ by decide)).1
    rw [htransitions] at hperm
    exact ⟨b, hb, hperm⟩

end RegexAutomata.Automaton
