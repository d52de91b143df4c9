/-
How many states and transitions the automaton of an expression has.

As long as nothing is written over, every change carries the transitions along: those
that are written come on top of those that are there (`Fits.transitions_write`), and
where two parts are joined no two transitions meet (`WellLinked.nodup_redirected`).  So
the states and the labels of what is built for an expression can be counted operation by
operation (`Built.size_eq`, `Built.labels_perm`): its labels are its operands, and four
times `ε` for every repetition and every union.

`structure_of_ofRegex` puts this together with what is known of the shape of such an
automaton.
-/
import RegexAutomata.Proofs.Assertions
import RegexAutomata.Proofs.Emptiness
import RegexAutomata.Proofs.Merging

namespace RegexAutomata

namespace Regex

/-- The number of places in an expression where an operation stands. -/
def occurrences (op : Operator) : Regex → Nat
  | .operand _ => 0
  | .star e => e.occurrences op + if op = .star then 1 else 0
  | .concat l r => l.occurrences op + r.occurrences op + if op = .concat then 1 else 0
  | .union l r => l.occurrences op + r.occurrences op + if op = .union then 1 else 0

/-- The number of states that are needed for an expression: two ends for an operand and
around a repetition or a union, and one state less where two parts meet. -/
def stateCount : Regex → Nat
  | .operand _ => 2
  | .star e => e.stateCount + 2
  | .concat l r => l.stateCount + r.stateCount - 1
  | .union l r => l.stateCount + r.stateCount + 2

theorem two_le_stateCount (e : Regex) : 2 ≤ e.stateCount := by
  induction e with
  | operand o => exact Nat.le_refl _
  | star e ih =>
    rw [stateCount]
    omega
  | concat l r ihl ihr =>
    rw [stateCount]
    omega
  | union l r ihl ihr =>
    rw [stateCount]
    omega

/-- How often `ε` is written to join the parts of an expression. -/
def joinCount (e : Regex) : Nat := 4 * e.occurrences .star + 4 * e.occurrences .union

section JoinCount

variable (e l r : Regex)

theorem joinCount_star : (star e).joinCount = 4 + e.joinCount := by
  simp only [joinCount, occurrences, if_true, reduceCtorEq, if_false]
  omega

theorem joinCount_concat : (concat l r).joinCount = l.joinCount + r.joinCount := by
  simp only [joinCount, occurrences, reduceCtorEq, if_false]
  omega

theorem joinCount_union : (union l r).joinCount = 4 + (l.joinCount + r.joinCount) := by
  simp only [joinCount, occurrences, if_true, reduceCtorEq, if_false]
  omega

end JoinCount

end Regex

namespace Automaton

variable {a b : Automaton} {p q keep absorb : State} {label : String} {ws : List Rewrite}
  {e : Regex} {ends : Fragment}

/-! ### States -/

theorem states_addState (a : Automaton) : a.addState.states = a.states ++ [a.nextState] := by
  have hsize : a.addState.rows.size = a.rows.size + 1 := nextState_addState a
  have hold : ∀ x ∈ List.range a.rows.size, a.addState.contains x = a.contains x := by
    intro x hx
    have hne : x ≠ a.nextState := Nat.ne_of_lt (List.mem_range.1 hx)
    rw [contains_addState, decide_eq_false hne, Bool.false_or]
  have hnew : a.addState.contains a.rows.size = true := by
    rw [contains_addState, decide_eq_true (show a.rows.size = a.nextState from rfl), Bool.true_or]
  rw [states, hsize, List.range_succ, List.filter_append, List.filter_congr hold, List.filter_cons,
    if_pos hnew]
  rfl

theorem size_addEnds (a : Automaton) : a.addEnds.2.size = a.size + 2 := by
  show a.addState.addState.states.length = a.states.length + 2
  rw [states_addState, states_addState, List.length_append, List.length_append]
  rfl

theorem size_write (a : Automaton) (ws : List Rewrite) : (a.write ws).size = a.size := by
  rw [size, size, states_write]

theorem size_removeState (h : a.contains q = true) : (a.removeState q).size + 1 = a.size := by
  rw [size, size, states_removeState]
  exact length_filter_ne a.nodup_states (mem_states.2 h)

/-- Folding one state into another takes just one state away. -/
theorem size_merge (hne : keep ≠ absorb) (hk : a.contains keep = true)
    (ha : a.contains absorb = true) : (a.merge keep absorb).size + 1 = a.size := by
  obtain ⟨links, hlinks⟩ := Option.isSome_iff_exists.1 ha
  rw [merge_eq hlinks hne hk]
  show ((a.removeState absorb).write (moved keep absorb links)).size + 1 = _
  rw [size_write, size_removeState ha]

/-! ### Transitions -/

theorem transitions_addEnds (h : a.WellLinked) : a.addEnds.2.transitions.Perm a.transitions := by
  refine h.addEnds.transitions_perm a.nodup_transitions fun p q label => ?_
  rw [h.mem_transitions, label?_addEnds]

namespace Fits

/-- What is written comes on top of what is there. -/
theorem label?_write_eq_some_iff (h : Fits a ws) :
    (a.write ws).label? p q = some label ↔ ⟨p, q, label⟩ ∈ ws ∨ a.label? p q = some label := by
  rw [label?_write h.mem, Option.or_eq_some_iff, written?_eq_some_iff h.distinct]
  refine or_congr_right ⟨fun hold => hold.2, fun hold => ⟨?_, hold⟩⟩
  rw [written?_eq_none_iff]
  rintro w hw ⟨rfl, rfl⟩
  rw [h.free w hw] at hold
  simp at hold

theorem transitions_write (h : Fits a ws) (ha : a.WellLinked) :
    (a.write ws).transitions.Perm
      (ws.map (fun w => (w.source, w.target, w.label)) ++ a.transitions) := by
  refine (ha.write ws).transitions_perm ?_ fun p q label => ?_
  · refine List.nodup_append.2 ⟨?_, a.nodup_transitions, ?_⟩
    · refine List.Nodup.of_map (fun t => (t.1, t.2.1)) ?_
      rw [List.map_map]
      exact h.distinct
    · rintro ⟨p, q, label⟩ hnew _ hold rfl
      obtain ⟨w, hw, heq⟩ := List.mem_map.1 hnew
      cases heq
      rw [ha.mem_transitions, h.free w hw] at hold
      simp at hold
  · rw [h.label?_write_eq_some_iff, List.mem_append, ha.mem_transitions, List.mem_map]
    refine or_congr_left ⟨?_, fun hw => ⟨_, hw, rfl⟩⟩
    rintro ⟨⟨p, q, label⟩, hw, heq⟩
    cases heq
    exact hw

end Fits

/-- Where nothing leaves the state that is kept and nothing enters the other one, no two
transitions come to join the same two states. -/
theorem WellLinked.nodup_redirected (h : a.WellLinked) (hleave : ∀ y, a.label? keep y = none)
    (henter : ∀ x, a.label? x absorb = none) : (a.redirected keep absorb).Nodup := by
  have hends : ∀ p q, (p, q) ∈ a.joinedPairs → p ≠ keep ∧ q ≠ absorb := by
    intro p q hmem
    obtain ⟨label, hl⟩ := h.mem_joinedPairs.1 hmem
    constructor
    · rintro rfl
      rw [hleave] at hl
      cases hl
    · rintro rfl
      rw [henter] at hl
      cases hl
  refine List.Nodup.map_on ?_ a.nodup_joinedPairs
  rintro ⟨p, q⟩ hmem ⟨p', q'⟩ hmem' heq
  obtain ⟨hp, hq⟩ := hends p q hmem
  obtain ⟨hp', hq'⟩ := hends p' q' hmem'
  obtain ⟨hpp, hqq⟩ := Prod.mk.inj heq
  rw [redirect_of_ne hq, redirect_of_ne hq'] at hqq
  -- only the two states would be confused, and one of them is left by nothing
  have hpp' : p = p' := by
    by_cases hpa : p = absorb
    · rw [hpa, redirect_absorb] at hpp
      rw [hpa, (redirect_eq_keep_iff.1 hpp.symm).resolve_left hp']
    · rw [redirect_of_ne hpa] at hpp
      exact ((redirect_eq_iff hp hpa).1 hpp.symm).symm
  rw [hpp', hqq]

/-! ### Labels -/

/-- The labels of the transitions, each as often as it occurs. -/
def labels (a : Automaton) : List String := a.transitions.map fun t => t.2.2

theorem length_labels (a : Automaton) : a.labels.length = a.transitionCount := List.length_map _

theorem labels_addEnds (h : a.WellLinked) : a.addEnds.2.labels.Perm a.labels :=
  (transitions_addEnds h).map _

theorem Fits.labels_write (h : Fits a ws) (ha : a.WellLinked) :
    (a.write ws).labels.Perm (ws.map Rewrite.label ++ a.labels) := by
  have hperm := (h.transitions_write ha).map fun t => t.2.2
  rw [List.map_append, List.map_map] at hperm
  exact hperm

theorem WellLinked.labels_merge (h : a.WellLinked) (hne : keep ≠ absorb)
    (hk : a.contains keep = true) (ha : a.contains absorb = true)
    (hleave : ∀ y, a.label? keep y = none) (henter : ∀ x, a.label? x absorb = none) :
    (a.merge keep absorb).labels.Perm a.labels := by
  have hapart := h.nodup_redirected hleave henter
  have hperm := (h.transitions_merge hne hk ha hapart).map fun t => t.2.2
  rw [List.map_map] at hperm
  exact hperm

theorem map_label_joins (js : List (State × State)) :
    (joins js).map Rewrite.label = List.replicate js.length Operand.emptyString.print := by
  rw [joins, List.map_map, ← List.map_const']
  rfl

theorem length_starJoins (inner ends : Fragment) : (starJoins inner ends).length = 4 := rfl

theorem length_unionJoins (left right ends : Fragment) :
    (unionJoins left right ends).length = 4 := rfl

/-! ### What is built -/

/-- The states that are built for an expression. -/
theorem Built.size_eq (h : Built e a ends b) (ha : a.WellLinked) :
    b.size = a.size + e.stateCount := by
  induction h with
  | operand o a => rw [size_write, size_addEnds, Regex.stateCount]
  | star _ ih =>
    rw [size_write, size_addEnds, ih ha, Regex.stateCount]
    omega
  | @concat l r a b c left right hl hr ihl ihr =>
    have hleft := hl.builds ha
    obtain ⟨hne, hk, hmem, -, -⟩ := meet_of_parts hleft (hr.builds hleft.linked)
    have hmerge := size_merge hne hk hmem
    have hcount := l.two_le_stateCount
    rw [ihr hleft.linked, ihl ha] at hmerge
    rw [Regex.stateCount]
    omega
  | union hl _ ihl ihr =>
    rw [size_write, size_addEnds, ihr (hl.builds ha).linked, ihl ha, Regex.stateCount]
    omega

/-- The labels that are built for an expression: its operands, and `ε` where its parts are
joined. -/
theorem Built.labels_perm (h : Built e a ends b) (ha : a.WellLinked) :
    b.labels.Perm (e.leaves.map Operand.print ++
      (List.replicate e.joinCount Operand.emptyString.print ++ a.labels)) := by
  -- on what is built, comparing how often each text occurs
  induction h with
  | operand o a =>
    exact ((fits_operand ha o).labels_write ha.addEnds).trans ((labels_addEnds ha).append_left _)
  | @star e a b inner h ih =>
    have hb := h.builds ha
    refine List.perm_iff_count.2 fun x => ?_
    have hjoins := ((fits_star hb).labels_write hb.linked.addEnds).count_eq x
    have hends := (labels_addEnds hb.linked).count_eq x
    have hpart := (ih ha).count_eq x
    rw [map_label_joins, length_starJoins] at hjoins
    rw [Regex.leaves, Regex.joinCount_star, List.replicate_add]
    simp only [List.count_append] at hjoins hpart ⊢
    omega
  | @concat l r a b c left right hl hr ihl ihr =>
    have hleft := hl.builds ha
    have hright := hr.builds hleft.linked
    obtain ⟨hne, hk, hmem, hleave, henter⟩ := meet_of_parts hleft hright
    refine List.perm_iff_count.2 fun x => ?_
    have hmerge := (hright.linked.labels_merge hne hk hmem hleave henter).count_eq x
    have hfirst := (ihl ha).count_eq x
    have hsecond := (ihr hleft.linked).count_eq x
    rw [Regex.leaves, Regex.joinCount_concat, List.replicate_add, List.map_append]
    simp only [List.count_append] at hfirst hsecond ⊢
    omega
  | @union l r a b c left right hl hr ihl ihr =>
    have hleft := hl.builds ha
    have hright := hr.builds hleft.linked
    refine List.perm_iff_count.2 fun x => ?_
    have hjoins := ((fits_union hleft hright).labels_write hright.linked.addEnds).count_eq x
    have hends := (labels_addEnds hright.linked).count_eq x
    have hfirst := (ihl ha).count_eq x
    have hsecond := (ihr hleft.linked).count_eq x
    rw [map_label_joins, length_unionJoins] at hjoins
    rw [Regex.leaves, Regex.joinCount_union, List.replicate_add, List.replicate_add,
      List.map_append]
    simp only [List.count_append] at hjoins hfirst hsecond ⊢
    omega

/-! ### The automaton of an expression -/

theorem size_ofRegex (e : Regex) : (ofRegex e).size = e.stateCount := by
  have h := (built_buildInto e .empty).size_eq wellLinked_empty
  rw [show empty.size = 0 from rfl, Nat.zero_add] at h
  rw [← h, ofRegex_eq_roles]
  rfl

/-- The labels of the automaton of an expression are its operands, and `ε` where its parts are
joined. -/
theorem labels_ofRegex (e : Regex) :
    (ofRegex e).labels.Perm (e.leaves.map Operand.print ++
      List.replicate e.joinCount Operand.emptyString.print) := by
  have h := (built_buildInto e .empty).labels_perm wellLinked_empty
  rw [show empty.labels = [] from rfl, List.append_nil] at h
  rw [ofRegex_eq_roles]
  exact h

theorem transitionCount_ofRegex (e : Regex) :
    (ofRegex e).transitionCount =
      e.leaves.length + 4 * e.occurrences .star + 4 * e.occurrences .union := by
  rw [← length_labels, (labels_ofRegex e).length_eq, List.length_append, List.length_map,
    List.length_replicate, Regex.joinCount, Nat.add_assoc]

/-- A label is an operand of the expression, or `ε`. -/
theorem exists_print_of_label? (hl : (ofRegex e).label? p q = some label) :
    ∃ o : Operand, (o ∈ e.leaves ∨ o = .emptyString) ∧ o.print = label := by
  have hmem : label ∈ (ofRegex e).labels :=
    List.mem_map.2 ⟨(p, q, label), (wellLinked_ofRegex e).mem_transitions.2 hl, rfl⟩
  rw [(labels_ofRegex e).mem_iff, List.mem_append, List.mem_map, List.mem_replicate] at hmem
  obtain ⟨o, ho, hlabel⟩ | ⟨-, hlabel⟩ := hmem
  · exact ⟨o, Or.inl ho, hlabel⟩
  · exact ⟨.emptyString, Or.inr rfl, hlabel.symm⟩

/-- Nothing enters the initial state, nothing leaves the final one, and the final one can be
reached from everywhere. -/
theorem roles_ofRegex (e : Regex) :
    ∃ i f, (ofRegex e).initial = some i ∧ (ofRegex e).final = some f ∧ i ≠ f ∧
      (ofRegex e).predecessors i = [] ∧ (ofRegex e).successors f = [] ∧
      ∀ q, (ofRegex e).contains q = true → (ofRegex e).Reaches q f := by
  have h := builds_buildInto wellLinked_empty e
  have hlinked := wellLinked_ofRegex e
  rw [ofRegex_eq_roles] at hlinked ⊢
  refine ⟨_, _, rfl, rfl, h.entry_ne_exit, ?_, ?_, fun q hq => (h.reaches q (Nat.zero_le q) hq).2⟩
  · refine List.eq_nil_iff_forall_not_mem.2 fun p hp => ?_
    obtain ⟨label, hl⟩ := hlinked.mem_predecessors.1 hp
    have hnone := h.label?_entry p
    rw [show (buildInto e empty).2.label? p _ = some label from hl] at hnone
    simp at hnone
  · refine List.eq_nil_iff_forall_not_mem.2 ?_
    rintro ⟨q, label⟩ hq
    have hl := mem_successors.1 hq
    have hnone := h.label?_exit q
    rw [show (buildInto e empty).2.label? _ q = some label from hl] at hnone
    simp at hnone

/-- **The shape of the automaton of an expression.**  Nothing that is taken for granted when it
is built fails, so no label is ever written over.  It is valid; its initial and its final state
are two, nothing enters the one and nothing leaves the other, which can be reached from
everywhere; each label is a single operand; and the numbers of its states and transitions are
those that the operations of the expression ask for. -/
theorem structure_of_ofRegex (e : Regex) :
    guardedOfRegex e = .ok (ofRegex e) ∧
    (ofRegex e).isValid = true ∧
    (∃ i f, (ofRegex e).initial = some i ∧ (ofRegex e).final = some f ∧ i ≠ f ∧
      (ofRegex e).predecessors i = [] ∧ (ofRegex e).successors f = [] ∧
      ∀ q, (ofRegex e).contains q = true → (ofRegex e).Reaches q f) ∧
    (∀ p q label, (ofRegex e).label? p q = some label →
      ∃ o : Operand, (o ∈ e.leaves ∨ o = .emptyString) ∧ o.print = label) ∧
    (ofRegex e).size = e.stateCount ∧
    (ofRegex e).transitionCount =
      e.leaves.length + 4 * e.occurrences .star + 4 * e.occurrences .union :=
  ⟨guardedOfRegex_eq e, isValid_ofRegex e, roles_ofRegex e,
    fun _ _ _ hl => exists_print_of_label? hl, size_ofRegex e, transitionCount_ofRegex e⟩

end Automaton

end RegexAutomata
