/-
What an automaton is like after any history of changes.

A history is a list of `Change`s, requests and eliminations, of which one that
fails leaves the automaton as it was (`after`, `afterAll`).  It starts without
states or with the automaton of an expression, which is itself what a history of
requests makes (`afterAll_building`); so the automata that can be made are those
that come out of a history (`reachable_iff`).

* `WellLinked.storesGraph` — both ends of every transition agree in all of them, and
  the lists of transitions and of predecessors are read off the labels;
* `range_nextState_afterAll` — the numbers of new states are given out one after
  another, none of them twice;
* `WellLinked.lacks_removeState` — when a state is taken away, its transitions and
  roles are gone, and nothing else.
-/
import Mathlib.Data.List.Sort
import RegexAutomata.Proofs.Fragments

namespace RegexAutomata

/-- A change of an automaton. -/
inductive Change where
  /-- Something that is asked for. -/
  | request (r : Request)
  /-- A state that is to be eliminated. -/
  | eliminate (t : SymbolTable) (q : State)

namespace Automaton

variable {a b : Automaton} {p q x y : State} {label : String}

/-! ### Histories -/

/-- The automaton after a change; one that fails leaves it as it was. -/
def after (a : Automaton) : Change → Automaton
  | .request r =>
    match a.perform r with
    | .ok b => b
    | .error _ => a
  | .eliminate t q =>
    match a.eliminateState t q with
    | .ok (_, b) => b
    | .error _ => a

/-- The automaton after a history of changes. -/
def afterAll (a : Automaton) (cs : List Change) : Automaton := cs.foldl after a

/-- The numbers that are given to new states by a change. -/
def given (a : Automaton) : Change → List State
  | .request .addState => [a.nextState]
  | _ => []

/-- The numbers that are given to new states in a history, in their order. -/
def givenAll : Automaton → List Change → List State
  | _, [] => []
  | a, c :: cs => a.given c ++ (a.after c).givenAll cs

@[simp] theorem afterAll_nil (a : Automaton) : a.afterAll [] = a := rfl

@[simp] theorem afterAll_cons (a : Automaton) (c : Change) (cs : List Change) :
    a.afterAll (c :: cs) = (a.after c).afterAll cs := rfl

@[simp] theorem afterAll_append (a : Automaton) (cs ds : List Change) :
    a.afterAll (cs ++ ds) = (a.afterAll cs).afterAll ds := List.foldl_append

/-- Where something speaks against a request, carrying it out would change
nothing. -/
theorem apply_eq_self {r : Request} {f : Fault} (h : a.fault? r = some f) : a.apply r = a := by
  cases r with
  | addState | removeState | disconnect => cases h
  | connect p q label =>
    show a.connect p q label = a
    rw [connect, if_neg]
    intro hc
    obtain ⟨hp, hq⟩ := Bool.and_eq_true_iff.1 hc
    simp [fault?, hp, hq] at h
  | setInitial q =>
    obtain ⟨q, rfl, hq⟩ := Option.bind_eq_some_iff.1 h
    show a.setInitial (some q) = a
    rw [setInitial, if_neg]
    intro hc
    rw [Option.all_some] at hc
    simp [hc] at hq
  | setFinal q =>
    obtain ⟨q, rfl, hq⟩ := Option.bind_eq_some_iff.1 h
    show a.setFinal (some q) = a
    rw [setFinal, if_neg]
    intro hc
    rw [Option.all_some] at hc
    simp [hc] at hq
  | merge keep absorb =>
    refine merge_eq_self ?_
    by_contra hnot
    obtain ⟨ha, hne, hk⟩ := not_or.1 hnot |>.imp_right not_or.1
    rw [Bool.not_eq_false] at hk
    have hc : a.contains absorb = true := Option.isSome_iff_ne_none.2 ha
    simp [fault?, hne, hk, hc] at h

/-- A request is carried out, or changes nothing. -/
theorem after_request (a : Automaton) (r : Request) : a.after (.request r) = a.apply r := by
  rw [after, perform]
  rcases h : a.fault? r with _ | f
  · rfl
  · exact (apply_eq_self h).symm

/-- A change fails and leaves the automaton as it was, or it succeeds. -/
theorem after_cases (a : Automaton) (c : Change) :
    a.after c = a ∨ (∃ r, a.perform r = .ok (a.after c)) ∨
      ∃ t q ws, a.eliminateState t q = .ok (ws, a.after c) := by
  cases c with
  | request r =>
    rw [after]
    rcases hb : a.perform r with f | b
    · exact Or.inl rfl
    · exact Or.inr (Or.inl ⟨r, hb⟩)
  | eliminate t q =>
    rw [after]
    rcases hb : a.eliminateState t q with error | ⟨ws, b⟩
    · exact Or.inl rfl
    · exact Or.inr (Or.inr ⟨t, q, ws, hb⟩)

theorem Reachable.after (h : a.Reachable) (c : Change) : (a.after c).Reachable := by
  rcases after_cases a c with heq | ⟨r, hb⟩ | ⟨t, q, ws, hb⟩
  · rw [heq]
    exact h
  · exact .perform h hb
  · exact .eliminateState h hb

theorem Reachable.afterAll (h : a.Reachable) (cs : List Change) :
    (a.afterAll cs).Reachable := by
  induction cs generalizing a with
  | nil => exact h
  | cons c cs ih => exact ih (h.after c)

/-! ### The history of the automaton of an expression -/

/-- The changes that add two states. -/
def addingEnds : List Change := [.request .addState, .request .addState]

/-- The changes that put transitions. -/
def writing (ws : List Rewrite) : List Change :=
  ws.map fun w => .request (.connect w.source w.target w.label)

theorem afterAll_addingEnds (a : Automaton) : a.afterAll addingEnds = a.addEnds.2 := rfl

theorem afterAll_writing (a : Automaton) (ws : List Rewrite) :
    a.afterAll (writing ws) = a.write ws := by
  induction ws generalizing a with
  | nil => rfl
  | cons w ws ih =>
    rw [writing, List.map_cons, afterAll_cons, after_request, write_cons]
    exact ih _

/-- The changes that build the fragment of an expression. -/
def buildingInto : Regex → Automaton → List Change
  | .operand o, a => addingEnds ++ writing [⟨a.addEnds.1.entry, a.addEnds.1.exit, o.print⟩]
  | .star e, a =>
    let (inner, b) := buildInto e a
    buildingInto e a ++ (addingEnds ++ writing (joins (starJoins inner b.addEnds.1)))
  | .concat l r, a =>
    let (left, b) := buildInto l a
    let (right, _) := buildInto r b
    buildingInto l a ++ (buildingInto r b ++ [.request (.merge left.exit right.entry)])
  | .union l r, a =>
    let (left, b) := buildInto l a
    let (right, c) := buildInto r b
    buildingInto l a ++
      (buildingInto r b ++ (addingEnds ++ writing (joins (unionJoins left right c.addEnds.1))))

/-- The changes that build the automaton of an expression. -/
def building (e : Regex) : List Change :=
  buildingInto e .empty ++
    [.request (.setInitial (some (buildInto e .empty).1.entry)),
      .request (.setFinal (some (buildInto e .empty).1.exit))]

theorem afterAll_buildingInto (e : Regex) (a : Automaton) :
    a.afterAll (buildingInto e a) = (buildInto e a).2 := by
  induction e generalizing a with
  | operand o =>
    rw [buildingInto, afterAll_append, afterAll_addingEnds, afterAll_writing, buildInto_operand]
  | star e ih =>
    rw [buildingInto, afterAll_append, ih, afterAll_append, afterAll_addingEnds,
      afterAll_writing, buildInto_star a e rfl]
  | concat l r ihl ihr =>
    rw [buildingInto, afterAll_append, ihl, afterAll_append, ihr, buildInto_concat a l r rfl rfl]
    exact after_request _ _
  | union l r ihl ihr =>
    rw [buildingInto, afterAll_append, ihl, afterAll_append, ihr, afterAll_append,
      afterAll_addingEnds, afterAll_writing, buildInto_union a l r rfl rfl]

/-- The automaton of an expression is made by requests alone. -/
theorem afterAll_building (e : Regex) : empty.afterAll (building e) = ofRegex e := by
  rw [building, afterAll_append, afterAll_buildingInto, ofRegex_eq, afterAll_cons,
    afterAll_cons, afterAll_nil, after_request, after_request]
  rfl

/-- The automata that can be made are those that come out of a history. -/
theorem reachable_iff : a.Reachable ↔ ∃ cs, empty.afterAll cs = a := by
  constructor
  · intro h
    induction h with
    | empty => exact ⟨[], rfl⟩
    | ofRegex e => exact ⟨building e, afterAll_building e⟩
    | @perform a b r _ hb ih =>
      obtain ⟨cs, rfl⟩ := ih
      refine ⟨cs ++ [.request r], ?_⟩
      rw [afterAll_append, afterAll_cons, afterAll_nil, Automaton.after, hb]
    | @eliminateState a b t q ws _ hb ih =>
      obtain ⟨cs, rfl⟩ := ih
      refine ⟨cs ++ [.eliminate t q], ?_⟩
      rw [afterAll_append, afterAll_cons, afterAll_nil, Automaton.after, hb]
  · rintro ⟨cs, rfl⟩
    exact Reachable.empty.afterAll cs

/-! ### The numbers of states -/

theorem nextState_disconnect (a : Automaton) (p q : State) :
    (a.disconnect p q).nextState = a.nextState := by
  show (modifyRow (modifyRow a.rows p _) q _).size = a.rows.size
  rw [size_modifyRow, size_modifyRow]

theorem nextState_setInitial (a : Automaton) (q : Option State) :
    (a.setInitial q).nextState = a.nextState := by
  rw [setInitial]
  split <;> rfl

theorem nextState_setFinal (a : Automaton) (q : Option State) :
    (a.setFinal q).nextState = a.nextState := by
  rw [setFinal]
  split <;> rfl

theorem nextState_merge_eq (a : Automaton) (keep absorb : State) :
    (a.merge keep absorb).nextState = a.nextState := by
  by_cases h : a.row? absorb = none ∨ keep = absorb ∨ a.contains keep = false
  · rw [merge_eq_self h]
  · obtain ⟨ha, hne, hk⟩ := not_or.1 h |>.imp_right not_or.1
    exact nextState_merge hne (Bool.not_eq_false _ ▸ hk) (Option.isSome_iff_ne_none.2 ha)

/-- A change gives the next number to a state, or none. -/
theorem range_nextState_after (a : Automaton) (c : Change) :
    List.range (a.after c).nextState = List.range a.nextState ++ a.given c := by
  -- only one of the changes adds a state
  have hsame : ∀ b : Automaton, b.nextState = a.nextState →
      List.range b.nextState = List.range a.nextState ++ [] := fun b hb => by
    rw [hb, List.append_nil]
  cases c with
  | request r =>
    rw [after_request]
    cases r with
    | addState =>
      show List.range a.addState.nextState = _
      rw [nextState_addState, List.range_succ]
      rfl
    | removeState q => exact hsame _ (nextState_removeState a q)
    | connect p q label => exact hsame _ (nextState_connect a p q label)
    | disconnect p q => exact hsame _ (nextState_disconnect a p q)
    | setInitial q => exact hsame _ (nextState_setInitial a q)
    | setFinal q => exact hsame _ (nextState_setFinal a q)
    | merge keep absorb => exact hsame _ (nextState_merge_eq a keep absorb)
  | eliminate t q =>
    rw [after]
    rcases hb : a.eliminateState t q with error | ⟨ws, b⟩
    · exact hsame _ rfl
    · obtain ⟨-, -, rfl⟩ := eliminateState_eq_ok_iff.1 hb
      exact hsame _ (by rw [nextState_removeState, nextState_write])

/-- The numbers are given out one after another. -/
theorem range_nextState_afterAll (a : Automaton) (cs : List Change) :
    List.range (a.afterAll cs).nextState = List.range a.nextState ++ a.givenAll cs := by
  induction cs generalizing a with
  | nil => exact (List.append_nil _).symm
  | cons c cs ih =>
    rw [afterAll_cons, ih, range_nextState_after, givenAll, List.append_assoc]

theorem givenAll_empty (cs : List Change) :
    empty.givenAll cs = List.range (empty.afterAll cs).nextState := by
  rw [range_nextState_afterAll]
  rfl

/-! ### The graph that is stored -/

theorem pairwise_states (a : Automaton) : a.states.Pairwise (· < ·) :=
  List.pairwise_lt_range.filter _

theorem pairwise_successors (a : Automaton) (p : State) :
    (a.successors p).Pairwise fun d e => d.1 < e.1 := by
  rw [successors]
  split
  · rename_i links _
    exact links.out.ascending
  · exact .nil

theorem pairwise_predecessors (a : Automaton) (q : State) :
    (a.predecessors q).Pairwise (· < ·) := by
  rw [predecessors]
  split
  · rename_i links _
    exact List.pairwise_map.2 links.into.ascending
  · exact .nil

/-- The predecessors of a state are the states from which a label leads to it. -/
theorem WellLinked.predecessors_eq (h : a.WellLinked) (q : State) :
    a.predecessors q = a.states.filter fun p => (a.label? p q).isSome := by
  refine (pairwise_predecessors a q).eq_of_mem_iff ((pairwise_states a).filter _) fun p => ?_
  rw [h.mem_predecessors, List.mem_filter, mem_states, Option.isSome_iff_exists]
  exact ⟨fun ⟨label, hl⟩ => ⟨(h.contains_of_label? hl).1, label, hl⟩, fun hp => hp.2⟩

theorem WellLinked.mem_transitions (h : a.WellLinked) :
    (p, q, label) ∈ a.transitions ↔ a.label? p q = some label := by
  rw [transitions, List.mem_flatMap]
  constructor
  · rintro ⟨x, -, hx⟩
    obtain ⟨⟨y, text⟩, hy, heq⟩ := List.mem_map.1 hx
    cases heq
    exact mem_successors.1 hy
  · intro hl
    refine ⟨p, mem_states.2 (h.contains_of_label? hl).1, List.mem_map.2 ⟨(q, label), ?_, rfl⟩⟩
    exact mem_successors.2 hl

/-- Transitions are listed by the state that they leave, and then by the one that
they enter. -/
theorem pairwise_transitions (a : Automaton) :
    a.transitions.Pairwise fun d e => d.1 < e.1 ∨ d.1 = e.1 ∧ d.2.1 < e.2.1 := by
  rw [transitions, List.pairwise_flatMap]
  constructor
  · intro p _
    rw [List.pairwise_map]
    exact (pairwise_successors a p).imp fun hde => Or.inr ⟨rfl, hde⟩
  · refine (pairwise_states a).imp fun {p q} hpq d hd e he => Or.inl ?_
    obtain ⟨d', -, rfl⟩ := List.mem_map.1 hd
    obtain ⟨e', -, rfl⟩ := List.mem_map.1 he
    exact hpq

theorem nodup_transitions (a : Automaton) : a.transitions.Nodup := by
  refine (pairwise_transitions a).imp fun hor heq => ?_
  rcases hor with hlt | ⟨-, hlt⟩
  · rw [heq] at hlt
    exact Nat.lt_irrefl _ hlt
  · rw [heq] at hlt
    exact Nat.lt_irrefl _ hlt

/-- What is stored is a labelled graph: a transition stands at both its ends, which
are states, the roles are with states, and every list of states or transitions is
read off the labels. -/
structure StoresGraph (a : Automaton) : Prop where
  /-- A transition stands where it leaves a state just if it stands where it enters
  one. -/
  agree : ∀ p q, (∃ links, a.row? p = some links ∧ q ∈ links.out.keys) ↔
    ∃ links, a.row? q = some links ∧ p ∈ links.into.keys
  ends : ∀ p q label, a.label? p q = some label → a.contains p = true ∧ a.contains q = true
  states_ascend : a.states.Pairwise (· < ·)
  mem_states : ∀ q, q ∈ a.states ↔ a.contains q = true
  predecessors_eq : ∀ q, a.predecessors q = a.states.filter fun p => (a.label? p q).isSome
  mem_transitions : ∀ p q label, (p, q, label) ∈ a.transitions ↔ a.label? p q = some label
  transitions_ascend :
    a.transitions.Pairwise fun d e => d.1 < e.1 ∨ d.1 = e.1 ∧ d.2.1 < e.2.1
  initial_mem : ∀ q, a.initial = some q → a.contains q = true
  final_mem : ∀ q, a.final = some q → a.contains q = true

theorem WellLinked.storesGraph (h : a.WellLinked) : a.StoresGraph where
  agree p q := by
    have hleave : (∃ links, a.row? p = some links ∧ q ∈ links.out.keys) ↔
        (a.label? p q).isSome := by
      rw [label?]
      rcases a.row? p with _ | links
      · simp
      · simp [NatMap.mem_keys_iff]
    have henter : (∃ links, a.row? q = some links ∧ p ∈ links.into.keys) ↔
        (a.entering? p q).isSome := by
      rw [entering?]
      rcases a.row? q with _ | links
      · simp
      · simp [NatMap.mem_keys_iff]
    rw [hleave, henter, h.agree]
  ends _ _ _ hl := h.contains_of_label? hl
  states_ascend := pairwise_states a
  mem_states _ := Automaton.mem_states
  predecessors_eq := h.predecessors_eq
  mem_transitions _ _ _ := h.mem_transitions
  transitions_ascend := pairwise_transitions a
  initial_mem := h.initial_mem
  final_mem := h.final_mem

/-- The automaton is another one without a state: the transitions of the state and
its roles are gone, and nothing else. -/
structure Lacks (q : State) (a b : Automaton) : Prop where
  contains_eq : ∀ x, b.contains x = (a.contains x && x ≠ q)
  label?_eq : ∀ x y, b.label? x y = if x = q ∨ y = q then none else a.label? x y
  initial_eq : b.initial = if a.initial = some q then none else a.initial
  final_eq : b.final = if a.final = some q then none else a.final
  nextState_eq : b.nextState = a.nextState

theorem WellLinked.lacks_removeState (h : a.WellLinked) (q : State) :
    Lacks q a (a.removeState q) where
  contains_eq x := by
    rw [contains_removeState]
    by_cases hx : x = q <;> simp [hx]
  label?_eq := label?_removeState h q
  initial_eq := by
    by_cases hq : a.contains q = true
    · exact initial_removeState a q hq
    · rw [if_neg fun hi => hq (h.initial_mem q hi), removeState_of_row?_eq_none]
      exact Option.not_isSome_iff_eq_none.1 hq
  final_eq := by
    by_cases hq : a.contains q = true
    · exact final_removeState a q hq
    · rw [if_neg fun hf => hq (h.final_mem q hf), removeState_of_row?_eq_none]
      exact Option.not_isSome_iff_eq_none.1 hq
  nextState_eq := nextState_removeState a q

end Automaton

end RegexAutomata
