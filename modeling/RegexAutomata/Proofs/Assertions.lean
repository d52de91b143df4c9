/-
What is taken for granted on the way from an expression to its automaton and
back always holds.

A `guarded` construction checks all of it as it goes: that a new state has a
new number, that the states which a request names are there, that no transition
takes the place of another one while an automaton is built, and that a state
which is taken away is there.  It stops at the first `Violation`.  None of
them ever stops, and what comes out is what the constructions without checks
make (`guardedOfRegex_eq`, `guardedEliminate_eq`).
-/
import RegexAutomata.Proofs.Fragments

namespace RegexAutomata

/-- What would stop a guarded construction. -/
inductive Violation where
  /-- A new state has the number of one that is there. -/
  | occupied (q : State)
  /-- A request cannot be granted. -/
  | refused (f : Fault)
  /-- A transition would take the place of another one. -/
  | replaced (p q : State)
  /-- A state that is to be taken away is not there. -/
  | missing (q : State)
  deriving DecidableEq

namespace Automaton

variable {a b c : Automaton} {t : SymbolTable} {p q : State} {ws : List Rewrite}

/-! ### Guarded constructions -/

/-- Add a state under a new number. -/
def guardedAddState (a : Automaton) : Except Violation Automaton :=
  if a.contains a.nextState then .error (.occupied a.nextState) else .ok a.addState

/-- Carry out a request that has to be granted. -/
def guardedPerform (a : Automaton) (r : Request) : Except Violation Automaton :=
  match a.perform r with
  | .ok b => .ok b
  | .error f => .error (.refused f)

/-- Put a transition where there is none. -/
def guardedJoin (a : Automaton) (w : Rewrite) : Except Violation Automaton :=
  if (a.label? w.source w.target).isSome then .error (.replaced w.source w.target)
  else a.guardedPerform (.connect w.source w.target w.label)

/-- Take a state away that has to be there. -/
def guardedRemove (a : Automaton) (q : State) : Except Violation Automaton :=
  if a.contains q then .ok (a.removeState q) else .error (.missing q)

/-- Add the two ends of a fragment. -/
def guardedAddEnds (a : Automaton) : Except Violation (Fragment × Automaton) := do
  let b ← a.guardedAddState
  let c ← b.guardedAddState
  return (⟨a.nextState, b.nextState⟩, c)

/-- Fold a state into another one, such that no transition is written over. -/
def guardedMerge (a : Automaton) (keep absorb : State) : Except Violation Automaton := do
  let _ ← a.guardedPerform (.merge keep absorb)
  let b ← a.guardedRemove absorb
  let c ← (moved keep absorb ((a.row? absorb).getD .none)).foldlM guardedJoin b
  return { c with
    initial := if a.initial = some absorb then some keep else a.initial
    final := if a.final = some absorb then some keep else a.final }

/-- Build the fragment of an expression. -/
def guardedBuild : Regex → Automaton → Except Violation (Fragment × Automaton)
  | .operand o, a => do
    let (ends, b) ← a.guardedAddEnds
    let c ← [⟨ends.entry, ends.exit, o.print⟩].foldlM guardedJoin b
    return (ends, c)
  | .star e, a => do
    let (inner, b) ← guardedBuild e a
    let (ends, c) ← b.guardedAddEnds
    let d ← (joins (starJoins inner ends)).foldlM guardedJoin c
    return (ends, d)
  | .concat l r, a => do
    let (left, b) ← guardedBuild l a
    let (right, c) ← guardedBuild r b
    let d ← c.guardedMerge left.exit right.entry
    return (⟨left.entry, right.exit⟩, d)
  | .union l r, a => do
    let (left, b) ← guardedBuild l a
    let (right, c) ← guardedBuild r b
    let (ends, d) ← c.guardedAddEnds
    let d' ← (joins (unionJoins left right ends)).foldlM guardedJoin d
    return (ends, d')

/-- The automaton of an expression. -/
def guardedOfRegex (e : Regex) : Except Violation Automaton := do
  let (ends, a) ← guardedBuild e .empty
  let b ← a.guardedPerform (.setInitial (some ends.entry))
  b.guardedPerform (.setFinal (some ends.exit))

/-- Eliminate a state: write every transition between states that are there,
and take away a state that is there. -/
def guardedEliminateState (a : Automaton) (t : SymbolTable) (q : State) :
    Except Violation (Except EliminationError (List Rewrite × Automaton)) :=
  match a.checkInner q, a.rewritesAround t q with
  | .error e, _ => .ok (.error e)
  | .ok (), .error e => .ok (.error e)
  | .ok (), .ok ws => do
    let b ← ws.foldlM (fun b w => b.guardedPerform (.connect w.source w.target w.label)) a
    let c ← b.guardedRemove q
    return .ok (ws, c)

/-- Eliminate the lowest inner state, again and again, and read the expression
off. -/
def guardedEliminateWithin (t : SymbolTable) : (rounds : Nat) → Automaton →
    Except Violation (Except EliminationError String)
  | 0, a => .ok (a.finalRegex t)
  | rounds + 1, a =>
    match a.innerStates.head? with
    | none => .ok (a.finalRegex t)
    | some q => do
      match ← a.guardedEliminateState t q with
      | .error e => return .error e
      | .ok (_, b) => guardedEliminateWithin t rounds b

/-- The expression of an automaton. -/
def guardedEliminate (a : Automaton) (t : SymbolTable) :
    Except Violation (Except EliminationError String) := guardedEliminateWithin t a.size a

/-! ### Single changes -/

theorem guardedAddState_eq (a : Automaton) : a.guardedAddState = .ok a.addState := by
  rw [guardedAddState, contains_eq_false (Nat.le_refl _)]
  rfl

theorem guardedAddEnds_eq (a : Automaton) : a.guardedAddEnds = .ok a.addEnds := by
  rw [guardedAddEnds, guardedAddState_eq]
  show (a.addState.guardedAddState >>= _) = _
  rw [guardedAddState_eq]
  show Except.ok ((⟨a.nextState, a.addState.nextState⟩ : Fragment), a.addState.addState) = _
  rw [nextState_addState]
  rfl

theorem guardedPerform_eq {r : Request} (h : a.fault? r = none) :
    a.guardedPerform r = .ok (a.apply r) := by
  rw [guardedPerform, perform_eq_ok_iff.2 ⟨h, rfl⟩]

theorem guardedRemove_eq (h : a.contains q = true) : a.guardedRemove q = .ok (a.removeState q) := by
  rw [guardedRemove, if_pos h]

theorem guardedConnect_eq {label : String} (hp : a.contains p = true)
    (hq : a.contains q = true) :
    a.guardedPerform (.connect p q label) = .ok (a.connect p q label) := by
  apply guardedPerform_eq
  rw [fault?, hp, hq]
  rfl

/-- Transitions that fit are written one by one, each to its place. -/
theorem foldlM_guardedJoin_eq (h : Fits a ws) : ws.foldlM guardedJoin a = .ok (a.write ws) := by
  induction ws generalizing a with
  | nil => rfl
  | cons w ws ih =>
    obtain ⟨⟨hs, ht⟩, hmem⟩ := List.forall_mem_cons.1 h.mem
    obtain ⟨hw, hfree⟩ := List.forall_mem_cons.1 h.free
    have hdistinct := h.distinct
    rw [List.map_cons, List.nodup_cons] at hdistinct
    -- the place that is taken now is wanted by none of the others
    have hrest : Fits (a.connect w.source w.target w.label) ws := by
      refine ⟨fun v hv => ?_, fun v hv => ?_, hdistinct.2⟩
      · rw [contains_connect, contains_connect]
        exact hmem v hv
      · rw [label?_connect hs ht, if_neg, hfree v hv]
        rintro ⟨hvs, hvt⟩
        exact hdistinct.1 (List.mem_map.2 ⟨v, hv, by rw [hvs, hvt]⟩)
    rw [List.foldlM_cons, guardedJoin, hw, guardedConnect_eq hs ht, write_cons]
    exact ih hrest

/-- Transitions between states that are there are written one by one. -/
theorem foldlM_guardedConnect_eq
    (h : ∀ w ∈ ws, a.contains w.source = true ∧ a.contains w.target = true) :
    ws.foldlM (fun b w => b.guardedPerform (.connect w.source w.target w.label)) a =
      .ok (a.write ws) := by
  induction ws generalizing a with
  | nil => rfl
  | cons w ws ih =>
    obtain ⟨⟨hs, ht⟩, hmem⟩ := List.forall_mem_cons.1 h
    rw [List.foldlM_cons, guardedConnect_eq hs ht, write_cons]
    refine ih fun v hv => ?_
    rw [contains_connect, contains_connect]
    exact hmem v hv

/-! ### Building -/

theorem guardedMerge_eq {keep absorb : State} (h : a.WellLinked) (hne : keep ≠ absorb)
    (hk : a.contains keep = true) (ha : a.contains absorb = true)
    (hleave : ∀ y, a.label? keep y = none) (henter : ∀ x, a.label? x absorb = none) :
    a.guardedMerge keep absorb = .ok (a.merge keep absorb) := by
  obtain ⟨links, hlinks⟩ := Option.isSome_iff_exists.1 ha
  have hfault : a.fault? (.merge keep absorb) = none := by
    rw [fault?, hk, ha]
    simp [hne]
  rw [guardedMerge, guardedPerform_eq hfault]
  show (a.guardedRemove absorb >>= _) = _
  rw [guardedRemove_eq ha]
  show ((moved keep absorb ((a.row? absorb).getD .none)).foldlM guardedJoin
    (a.removeState absorb) >>= _) = _
  rw [hlinks, Option.getD_some,
    foldlM_guardedJoin_eq (fits_moved hne hk h henter hlinks hleave), merge_eq hlinks hne hk]
  rfl

/-- No transition is ever written over while the automaton of an expression is
built. -/
theorem Built.guardedBuild_eq {e : Regex} {ends : Fragment} (h : Built e a ends b)
    (ha : a.WellLinked) : guardedBuild e a = .ok (ends, b) := by
  induction h with
  | operand o a =>
    rw [guardedBuild, guardedAddEnds_eq]
    show ([⟨a.addEnds.1.entry, a.addEnds.1.exit, o.print⟩].foldlM guardedJoin a.addEnds.2 >>= _) =
      _
    rw [foldlM_guardedJoin_eq (fits_operand ha o)]
    rfl
  | @star e a b inner h ih =>
    rw [guardedBuild, ih ha]
    show (b.guardedAddEnds >>= _) = _
    rw [guardedAddEnds_eq]
    show ((joins (starJoins inner b.addEnds.1)).foldlM guardedJoin b.addEnds.2 >>= _) = _
    rw [foldlM_guardedJoin_eq (fits_star (h.builds ha))]
    rfl
  | @concat l r a b c left right hl hr ihl ihr =>
    have hleft := hl.builds ha
    have hright := hr.builds hleft.linked
    obtain ⟨hne, hk, hmem, hleave, henter⟩ := meet_of_parts hleft hright
    rw [guardedBuild, ihl ha]
    show (guardedBuild r b >>= _) = _
    rw [ihr hleft.linked]
    show (c.guardedMerge left.exit right.entry >>= _) = _
    rw [guardedMerge_eq hright.linked hne hk hmem hleave henter]
    rfl
  | @union l r a b c left right hl hr ihl ihr =>
    have hleft := hl.builds ha
    have hright := hr.builds hleft.linked
    rw [guardedBuild, ihl ha]
    show (guardedBuild r b >>= _) = _
    rw [ihr hleft.linked]
    show (c.guardedAddEnds >>= _) = _
    rw [guardedAddEnds_eq]
    show ((joins (unionJoins left right c.addEnds.1)).foldlM guardedJoin c.addEnds.2 >>= _) = _
    rw [foldlM_guardedJoin_eq (fits_union hleft hright)]
    rfl

theorem guardedOfRegex_eq (e : Regex) : guardedOfRegex e = .ok (ofRegex e) := by
  have h := builds_buildInto wellLinked_empty e
  have hi : (buildInto e .empty).2.fault? (.setInitial (some (buildInto e .empty).1.entry)) =
      none := by
    show (if (buildInto e .empty).2.contains (buildInto e .empty).1.entry then none else _) = none
    rw [if_pos h.entry_mem]
  have hf : ((buildInto e .empty).2.setInitial (some (buildInto e .empty).1.entry)).fault?
      (.setFinal (some (buildInto e .empty).1.exit)) = none := by
    show (if ((buildInto e .empty).2.setInitial (some (buildInto e .empty).1.entry)).contains
      (buildInto e .empty).1.exit then none else _) = none
    have hset : (some (buildInto e .empty).1.entry).all (buildInto e .empty).2.contains = true :=
      h.entry_mem
    rw [setInitial, if_pos hset, if_pos]
    exact h.exit_mem
  rw [guardedOfRegex, (built_buildInto e .empty).guardedBuild_eq wellLinked_empty, ofRegex_eq]
  show ((buildInto e .empty).2.guardedPerform
    (.setInitial (some (buildInto e .empty).1.entry)) >>= _) = _
  rw [guardedPerform_eq hi]
  exact guardedPerform_eq hf

/-! ### Elimination -/

theorem guardedEliminateState_eq (h : a.WellLinked) (t : SymbolTable) (q : State) :
    a.guardedEliminateState t q = .ok (a.eliminateState t q) := by
  rw [guardedEliminateState, eliminateState]
  rcases hcheck : a.checkInner q with error | ⟨⟩
  · rfl
  · rcases hws : a.rewritesAround t q with error | ws
    · rfl
    · -- what is written lies between states that are there, and the state is still one of them
      obtain ⟨i, f, -, -, hq, -, -⟩ := checkInner_eq_ok_iff.1 hcheck
      show (ws.foldlM (fun b w => b.guardedPerform (.connect w.source w.target w.label)) a >>=
        _) = _
      rw [foldlM_guardedConnect_eq (contains_of_rewritesAround h hws)]
      show ((a.write ws).guardedRemove q >>= _) = _
      rw [guardedRemove_eq (by rw [contains_write, hq])]
      rfl

theorem guardedEliminateWithin_eq (h : a.WellLinked) (t : SymbolTable) (rounds : Nat) :
    guardedEliminateWithin t rounds a = .ok (eliminateWithin t rounds a) := by
  induction rounds generalizing a with
  | zero => rfl
  | succ rounds ih =>
    rw [guardedEliminateWithin, eliminateWithin]
    rcases a.innerStates.head? with _ | q
    · rfl
    · show (a.guardedEliminateState t q >>= _) = Except.ok (a.eliminateState t q >>= _)
      rw [guardedEliminateState_eq h]
      rcases hb : a.eliminateState t q with error | ⟨ws, b⟩
      · rfl
      · exact ih (h.eliminateState hb)

/-- Nothing that elimination takes for granted ever fails. -/
theorem guardedEliminate_eq (h : a.WellLinked) (t : SymbolTable) :
    a.guardedEliminate t = .ok (a.eliminate t) := guardedEliminateWithin_eq h t a.size

end Automaton

end RegexAutomata
