/-
What every change does to the graph that an automaton stores.

All that can be seen of an automaton is a `LabelledGraph`: its states, the label between
any two of them, its two roles and the number that is due (`Automaton.view`).  Requests
can be made of such a graph as well (`LabelledGraph.apply`).  One that is allowed does to
an automaton what it does to its graph (`WellLinked.view_apply`), one that is not fails
(`exists_fault?`), and an elimination comes down to some requests
(`WellLinked.view_eliminateState`).

So after any history an automaton stores a graph, and every further change is one of
that graph (`graph_of_history`).
-/
import RegexAutomata.Proofs.Elimination
import RegexAutomata.Proofs.Merging

namespace RegexAutomata

/-! ### Graphs with labels -/

/-- What can be seen of an automaton. -/
structure LabelledGraph where
  /-- Whether a number is that of a state. -/
  contains : State → Bool
  /-- The label of the transition from one state to another. -/
  label? : State → State → Option String
  /-- The initial state. -/
  initial : Option State
  /-- The final state. -/
  final : Option State
  /-- The number that the next state will have. -/
  nextState : State

namespace LabelledGraph

/-- The label between two states after `absorb` has been folded into `keep`.  A transition
of the absorbed state takes the place of one of the kept state; of the two that left the
absorbed state and come to lead from `keep` to itself, the one that entered the state with
the greater number stays, unless one entered the absorbed state from `keep`. -/
def folded (g : LabelledGraph) (keep absorb p q : State) : Option String :=
  if p = absorb ∨ q = absorb then none
  else if p = keep then
    if q = keep then
      (g.label? keep absorb).or
        (((g.label? absorb (max keep absorb)).or (g.label? absorb (min keep absorb))).or
          (g.label? keep keep))
    else (g.label? absorb q).or (g.label? keep q)
  else if q = keep then (g.label? p absorb).or (g.label? p keep)
  else g.label? p q

/-- The graph after a request. -/
def apply (g : LabelledGraph) : Request → LabelledGraph
  | .addState => { g with
      contains := fun x => x = g.nextState || g.contains x
      nextState := g.nextState + 1 }
  | .removeState q => { g with
      contains := fun x => g.contains x && x ≠ q
      label? := fun x y => if x = q ∨ y = q then none else g.label? x y
      initial := if g.initial = some q then none else g.initial
      final := if g.final = some q then none else g.final }
  | .connect p q label => { g with
      label? := fun x y => if x = p ∧ y = q then some label else g.label? x y }
  | .disconnect p q => { g with
      label? := fun x y => if x = p ∧ y = q then none else g.label? x y }
  | .setInitial q => { g with initial := q }
  | .setFinal q => { g with final := q }
  | .merge keep absorb => { g with
      contains := fun x => g.contains x && x ≠ absorb
      label? := g.folded keep absorb
      initial := if g.initial = some absorb then some keep else g.initial
      final := if g.final = some absorb then some keep else g.final }

/-- Every state that is named is there, or is not needed. -/
def Allows (g : LabelledGraph) : Request → Prop
  | .addState | .removeState _ | .disconnect _ _ => True
  | .connect p q _ => g.contains p = true ∧ g.contains q = true
  | .setInitial q | .setFinal q => ∀ x, q = some x → g.contains x = true
  | .merge keep absorb => keep ≠ absorb ∧ g.contains keep = true ∧ g.contains absorb = true

/-- The graph after some transitions have been put. -/
def write (g : LabelledGraph) (ws : List Rewrite) : LabelledGraph :=
  ws.foldl (fun g w => g.apply (.connect w.source w.target w.label)) g

end LabelledGraph

namespace Automaton

variable {a b : Automaton} {t : SymbolTable} {q keep absorb : State} {r : Request}
  {ws : List Rewrite}

/-- The graph that can be seen. -/
def view (a : Automaton) : LabelledGraph where
  contains := a.contains
  label? := a.label?
  initial := a.initial
  final := a.final
  nextState := a.nextState

/-! ### What a request does -/

theorem fault?_eq_none_iff : a.fault? r = none ↔ a.view.Allows r := by
  have hrole : ∀ q : Option State,
      (q.bind fun q => if a.contains q then none else some (Fault.noStateForRole q)) = none ↔
        ∀ x, q = some x → a.contains x = true := by
    intro q
    simp only [Option.bind_eq_none_iff, ite_eq_left_iff, reduceCtorEq, imp_false, not_not]
  cases r with
  | addState | removeState | disconnect => exact iff_of_true rfl trivial
  | connect p q label =>
    simp only [fault?, LabelledGraph.Allows, view]
    cases a.contains p <;> cases a.contains q <;> simp
  | setInitial q => exact hrole q
  | setFinal q => exact hrole q
  | merge keep absorb =>
    simp only [fault?, LabelledGraph.Allows, view]
    by_cases hne : keep = absorb
    · simp [hne]
    · cases a.contains keep <;> cases a.contains absorb <;> simp [hne]

theorem Lacks.view_eq (h : Lacks q a b) : b.view = a.view.apply (.removeState q) := by
  simp only [view, LabelledGraph.apply, LabelledGraph.mk.injEq]
  exact ⟨funext h.contains_eq, funext₂ h.label?_eq, h.initial_eq, h.final_eq, h.nextState_eq⟩

/-- The transitions of two states that become one, and of all others. -/
theorem Folds.label?_eq (h : Folds keep absorb a b) (p q : State) :
    b.label? p q = a.view.folded keep absorb p q := by
  rw [LabelledGraph.folded]
  split
  · rename_i hgone
    rcases hgone with rfl | rfl
    · exact (h.gone q).1
    · exact (h.gone p).2
  · rename_i hstays
    obtain ⟨hp, hq⟩ := not_or.1 hstays
    split
    · rename_i hpk
      subst hpk
      split
      · rename_i hqk
        subst hqk
        exact h.loop
      · rename_i hqk
        exact h.leaving q hqk hq
    · rename_i hpk
      split
      · rename_i hqk
        subst hqk
        exact h.entering p hpk hp
      · rename_i hqk
        exact h.elsewhere p q hpk hp hqk hq

/-- An allowed request does to an automaton what it does to its graph. -/
theorem WellLinked.view_apply (h : a.WellLinked) (hr : a.view.Allows r) :
    (a.apply r).view = a.view.apply r := by
  cases r with
  | addState =>
    show a.addState.view = _
    simp only [view, LabelledGraph.apply, LabelledGraph.mk.injEq]
    exact ⟨funext (contains_addState a), funext₂ (label?_addState a), rfl, rfl,
      nextState_addState a⟩
  | removeState q => exact (h.lacks_removeState q).view_eq
  | connect p q label =>
    obtain ⟨hp, hq⟩ := hr
    show (a.connect p q label).view = _
    simp only [view, LabelledGraph.apply, LabelledGraph.mk.injEq]
    exact ⟨funext (contains_connect a p q label), funext₂ (label?_connect hp hq label),
      initial_connect a p q label, final_connect a p q label, nextState_connect a p q label⟩
  | disconnect p q =>
    show (a.disconnect p q).view = _
    simp only [view, LabelledGraph.apply, LabelledGraph.mk.injEq]
    exact ⟨funext (contains_disconnect a p q), funext₂ (label?_disconnect a p q), rfl, rfl,
      nextState_disconnect a p q⟩
  | setInitial q =>
    have hall : q.all a.contains = true := (Option.all_eq_true _ _).2 hr
    show (a.setInitial q).view = _
    rw [Automaton.setInitial, if_pos hall]
    rfl
  | setFinal q =>
    have hall : q.all a.contains = true := (Option.all_eq_true _ _).2 hr
    show (a.setFinal q).view = _
    rw [Automaton.setFinal, if_pos hall]
    rfl
  | merge keep absorb =>
    obtain ⟨hne, hk, ha⟩ := hr
    have hfolds := h.folds_merge hne hk ha
    obtain ⟨hinitial, hfinal⟩ := roles_merge hne hk ha
    show (a.merge keep absorb).view = _
    simp only [view, LabelledGraph.apply, LabelledGraph.mk.injEq]
    refine ⟨funext fun x => ?_, funext₂ hfolds.label?_eq, hinitial, hfinal, hfolds.nextState_eq⟩
    rw [contains_merge hne hk ha]
    by_cases hx : x = absorb <;> simp [hx]

theorem exists_fault? (h : ¬ a.view.Allows r) : ∃ f, a.fault? r = some f :=
  Option.ne_none_iff_exists'.1 fun hnone => h (fault?_eq_none_iff.1 hnone)

/-! ### What an elimination does -/

theorem WellLinked.view_write (h : a.WellLinked)
    (hws : ∀ w ∈ ws, a.contains w.source = true ∧ a.contains w.target = true) :
    (a.write ws).view = a.view.write ws := by
  induction ws generalizing a with
  | nil => rfl
  | cons w ws ih =>
    have hconnect : (a.connect w.source w.target w.label).view = _ :=
      h.view_apply (r := .connect w.source w.target w.label) (hws w (List.mem_cons_self ..))
    rw [write_cons, ih (h.connect _ _ _) fun v hv => ?_, hconnect]
    · rfl
    · rw [contains_connect, contains_connect]
      exact hws v (List.mem_cons_of_mem _ hv)

/-- An elimination puts some transitions and takes a state away. -/
theorem WellLinked.view_eliminateState (h : a.WellLinked)
    (hb : a.eliminateState t q = .ok (ws, b)) :
    b.view = (a.view.write ws).apply (.removeState q) := by
  obtain ⟨-, hws, rfl⟩ := eliminateState_eq_ok_iff.1 hb
  rw [((h.write ws).lacks_removeState q).view_eq, h.view_write (contains_of_rewritesAround h hws)]

/-- The next change is one of the graph, or else it fails and changes nothing. -/
structure Shows (a : Automaton) : Prop where
  allowed : ∀ r, a.view.Allows r →
    a.perform r = .ok (a.after (.request r)) ∧ (a.after (.request r)).view = a.view.apply r
  forbidden : ∀ r, ¬ a.view.Allows r →
    (∃ f, a.perform r = .error f) ∧ a.after (.request r) = a
  eliminated : ∀ t q ws b, a.eliminateState t q = .ok (ws, b) →
    a.after (.eliminate t q) = b ∧ b.view = (a.view.write ws).apply (.removeState q)
  refused : ∀ t q error, a.eliminateState t q = .error error → a.after (.eliminate t q) = a

theorem WellLinked.shows (h : a.WellLinked) : a.Shows where
  allowed r hr := by
    have hperform : a.perform r = .ok (a.apply r) := by
      rw [perform, fault?_eq_none_iff.2 hr]
    rw [after_request]
    exact ⟨hperform, h.view_apply hr⟩
  forbidden r hr := by
    obtain ⟨f, hf⟩ := exists_fault? hr
    have hperform : a.perform r = .error f := by rw [perform, hf]
    refine ⟨⟨f, hperform⟩, ?_⟩
    rw [after, hperform]
  eliminated t q ws b hb := by
    refine ⟨?_, h.view_eliminateState hb⟩
    rw [after, hb]
  refused t q error herror := by
    rw [after, herror]

/-! ### All histories -/

/-- What a history starts with. -/
inductive Origin where
  /-- No states. -/
  | empty
  /-- The automaton of an expression. -/
  | ofRegex (e : Regex)

/-- The automaton that a history starts with. -/
def Origin.automaton : Origin → Automaton
  | .empty => .empty
  | .ofRegex e => .ofRegex e

/-- The changes that have led there. -/
def Origin.history : Origin → List Change
  | .empty => []
  | .ofRegex e => building e

theorem Origin.afterAll_history (o : Origin) :
    Automaton.empty.afterAll o.history = o.automaton := by
  cases o with
  | empty => rfl
  | ofRegex e => exact afterAll_building e

theorem Origin.reachable (o : Origin) : o.automaton.Reachable := by
  cases o with
  | empty => exact .empty
  | ofRegex e => exact .ofRegex e

/-- **A graph after every history.**  Whatever has been asked for, an automaton stores a
labelled graph; the numbers of its states are among those that were given out, which
ascend and lie below the next one, so that a new state is none that has ever been there;
taking a state away takes its transitions and roles away and nothing else; and any other
change does to the labels and the roles what it does to those of the graph. -/
theorem graph_of_history (o : Origin) (cs : List Change) :
    let a := o.automaton.afterAll cs
    let numbers := empty.givenAll (o.history ++ cs)
    a.StoresGraph ∧
      (∀ q, a.contains q = true → q ∈ numbers) ∧
      numbers.Pairwise (· < ·) ∧
      (∀ q ∈ numbers, q < a.nextState) ∧
      (a.contains a.nextState = false ∧
        ∀ x, a.addState.contains x = (decide (x = a.nextState) || a.contains x)) ∧
      (∀ q, Lacks q a (a.removeState q)) ∧
      a.Shows := by
  intro a numbers
  have h : a.WellLinked := (o.reachable.afterAll cs).wellLinked
  have hnumbers : numbers = List.range a.nextState := by
    show empty.givenAll (o.history ++ cs) = _
    rw [givenAll_empty, afterAll_append, o.afterAll_history]
  rw [hnumbers]
  refine ⟨h.storesGraph, ?_, List.pairwise_lt_range, ?_, ⟨?_, ?_⟩, h.lacks_removeState,
    h.shows⟩
  · intro q hq
    exact List.mem_range.2 (lt_nextState hq)
  · intro q hq
    exact List.mem_range.1 hq
  · exact contains_eq_false (Nat.le_refl _)
  · exact contains_addState a

/-- A state that is its own neighbour is taken away, and the next one that is added has a
number of its own.  The transition between two other states stays, and goes on to enter the
state into which a further request folds the one that it has entered. -/
theorem graph_of_history_removed :
    let cs : List Change := [.request .addState, .request .addState, .request .addState,
      .request (.connect 0 1 "a"), .request (.connect 1 1 "b"), .request (.connect 0 2 "c"),
      .request (.setInitial (some 0)), .request (.removeState 1), .request .addState]
    let a := empty.afterAll cs
    a.states = [0, 2, 3] ∧ a.transitions = [(0, 2, "c")] ∧ a.predecessors 2 = [0] ∧
      3 ∈ empty.givenAll cs ∧ a.StoresGraph ∧
      (a.after (.request (.merge 3 2))).label? 0 3 = some "c" ∧
      a.after (.request (.merge 3 1)) = a := by
  intro cs a
  obtain ⟨hgraph, hgiven, -, -, -, -, hshows⟩ := graph_of_history .empty cs
  replace hgraph : a.StoresGraph := hgraph
  replace hshows : a.Shows := hshows
  have hstates : a.states = [0, 2, 3] := by
    subst a cs
    cbv
  have htransitions : a.transitions = [(0, 2, "c")] := by
    subst a cs
    cbv
  have hpredecessors : a.predecessors 2 = [0] := by
    subst a cs
    cbv
  have hcontains : ∀ q : State, a.contains q = true ↔ q = 0 ∨ q = 2 ∨ q = 3 := fun q => by
    rw [← hgraph.mem_states, hstates]
    simp
  have hlabel : a.label? 0 2 = some "c" := by
    rw [← hgraph.mem_transitions, htransitions]
    exact List.mem_singleton_self _
  refine ⟨hstates, htransitions, hpredecessors, hgiven 3 ((hcontains 3).2 (by decide)), hgraph,
    ?_, ?_⟩
  · have hallows : a.view.Allows (.merge 3 2) :=
      ⟨by decide, (hcontains 3).2 (by decide), (hcontains 2).2 (by decide)⟩
    have hview := congrArg LabelledGraph.label? (hshows.allowed _ hallows).2
    have hfolded : (a.after (.request (.merge 3 2))).label? 0 3 =
        (a.label? 0 2).or (a.label? 0 3) := congrFun₂ hview 0 3
    rw [hfolded, hlabel, Option.some_or]
  · refine (hshows.forbidden _ fun hallows => ?_).2
    exact absurd ((hcontains 1).1 hallows.2.2) (by decide)

end Automaton

end RegexAutomata
