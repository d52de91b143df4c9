/-
What an elimination does to the graph, and in which order states may be eliminated.

A state that is eliminated is gone, there is a new transition from each of its
predecessors to each of its successors, and everything else is as it was
(`Bypasses`, `WellLinked.bypasses_eliminateState`).  An inner state of a valid
automaton can only fail to be eliminated because of a label
(`failsOnly_eliminateState`), and what is left is valid again.  So the inner states may
be taken in any order: each step takes one of them away, until two states are left
(`Proceeds`, `WellLinked.proceeds_eliminateEach`).

* `effect_of_elimination` — both together, for every automaton that can be made.
-/
import RegexAutomata.Proofs.Conversion
import RegexAutomata.Proofs.Histories

namespace RegexAutomata

/-! ### Outcomes -/

section Outcomes

variable {ε α β : Type} {P : ε → Prop}

/-- Where something fails, it is for a reason of a certain kind. -/
def FailsOnly (P : ε → Prop) (x : Except ε α) : Prop := ∀ error, x = .error error → P error

theorem failsOnly_ok (a : α) : FailsOnly P (.ok a) := by
  intro error h
  cases h

theorem FailsOnly.bind {x : Except ε α} {f : α → Except ε β} (hx : FailsOnly P x)
    (hf : ∀ a, FailsOnly P (f a)) : FailsOnly P (x >>= f) := by
  intro error h
  rcases bind_eq_error_iff.1 h with h | ⟨a, -, h⟩
  · exact hx error h
  · exact hf a error h

theorem FailsOnly.mapM {f : α → Except ε β} (hf : ∀ a, FailsOnly P (f a)) (xs : List α) :
    FailsOnly P (xs.mapM f) := by
  intro error h
  obtain ⟨x, -, hx⟩ := exists_mem_of_mapM_eq_error h
  exact hf x error hx

end Outcomes

/-- A label could not be read, or not be written. -/
def EliminationError.OfLabel (error : EliminationError) : Prop :=
  ∃ text cause, error = .label text cause

namespace Automaton

open EliminationError (OfLabel)

variable {a b : Automaton} {t : SymbolTable} {p q r i f : State} {ws : List Rewrite}

/-! ### The transitions that are written -/

theorem pairwise_sources (a : Automaton) (q : State) : (a.sources q).Pairwise (· < ·) :=
  (pairwise_predecessors a q).filter _

theorem pairwise_targets (a : Automaton) (q : State) : (a.targets q).Pairwise (· < ·) :=
  (List.pairwise_map.2 (pairwise_successors a q)).filter _

/-- Pairs of states that ascend are in the order of their first states, and then of
their second ones. -/
theorem pairwise_product {ps rs : List State} (hps : ps.Pairwise (· < ·))
    (hrs : rs.Pairwise (· < ·)) :
    (ps ×ˢ rs).Pairwise fun d e => d.1 < e.1 ∨ d.1 = e.1 ∧ d.2 < e.2 := by
  show (ps.flatMap fun p => rs.map (Prod.mk p)).Pairwise _
  rw [List.pairwise_flatMap]
  constructor
  · intro p _
    rw [List.pairwise_map]
    exact hrs.imp fun hlt => Or.inr ⟨rfl, hlt⟩
  · refine hps.imp fun hlt d hd e he => Or.inl ?_
    obtain ⟨d', -, rfl⟩ := List.mem_map.1 hd
    obtain ⟨e', -, rfl⟩ := List.mem_map.1 he
    exact hlt

theorem map_ends_of_rewritesAround (h : a.rewritesAround t q = .ok ws) :
    (ws.map fun w => (w.source, w.target)) = a.sources q ×ˢ a.targets q := by
  rw [← List.forall₂_eq_eq_eq, List.forall₂_map_left_iff]
  exact ((forall₂_rewritesAround h).imp fun ends w hw => Prod.ext hw.1 hw.2.1).flip

/-- What is written ascends by the states that it leaves, and then by those that it
enters. -/
theorem pairwise_of_rewritesAround (h : a.rewritesAround t q = .ok ws) :
    ws.Pairwise fun v w => v.source < w.source ∨ v.source = w.source ∧ v.target < w.target := by
  have hends := pairwise_product (pairwise_sources a q) (pairwise_targets a q)
  rw [← map_ends_of_rewritesAround h, List.pairwise_map] at hends
  exact hends

/-- Nothing is written twice between two states. -/
theorem nodup_of_rewritesAround (h : a.rewritesAround t q = .ok ws) :
    (ws.map fun w => (w.source, w.target)).Nodup := by
  rw [map_ends_of_rewritesAround h]
  exact (pairwise_sources a q).nodup.product (pairwise_targets a q).nodup

theorem exists_mem_rewritesAround_iff (h : a.rewritesAround t q = .ok ws) :
    (∃ label, ⟨p, r, label⟩ ∈ ws) ↔ p ∈ a.sources q ∧ r ∈ a.targets q := by
  constructor
  · rintro ⟨label, hw⟩
    obtain ⟨hp, hr, -⟩ := detour_of_mem h hw
    exact ⟨hp, hr⟩
  · intro hpr
    exact exists_mem_rewritesAround h hpr.1 hpr.2

/-! ### The graph around a state -/

/-- The automaton is another one without a state: what was written leads from each
predecessor of the state to each successor of it, once and in ascending order, and
everything else is as it was. -/
structure Bypasses (q : State) (ws : List Rewrite) (a b : Automaton) : Prop where
  ascending : ws.Pairwise fun v w =>
    v.source < w.source ∨ v.source = w.source ∧ v.target < w.target
  written_iff : ∀ p r, (∃ label, ⟨p, r, label⟩ ∈ ws) ↔
    (p ∈ a.predecessors q ∧ p ≠ q) ∧ r ∈ (a.successors q).map Prod.fst ∧ r ≠ q
  states_eq : b.states = a.states.filter fun x => x ≠ q
  initial_eq : b.initial = a.initial
  final_eq : b.final = a.final
  label?_written : ∀ w ∈ ws, b.label? w.source w.target = some w.label
  label?_unwritten : ∀ p r, p ≠ q → r ≠ q → (¬ ∃ label, ⟨p, r, label⟩ ∈ ws) →
    b.label? p r = a.label? p r
  label?_gone : ∀ p r, p = q ∨ r = q → b.label? p r = none
  valid : b.isValid = true

theorem WellLinked.bypasses_eliminateState (h : a.WellLinked)
    (hb : a.eliminateState t q = .ok (ws, b)) : Bypasses q ws a b := by
  have hlabel := label?_eliminateState h hb
  obtain ⟨hinitial, hfinal⟩ := roles_eliminateState hb
  obtain ⟨-, hws, -⟩ := eliminateState_eq_ok_iff.1 hb
  exact
    { ascending := pairwise_of_rewritesAround hws
      written_iff := fun p r => by
        rw [exists_mem_rewritesAround_iff hws, sources, targets, List.mem_filter,
          List.mem_filter, decide_eq_true_eq, decide_eq_true_eq]
      states_eq := states_eliminateState hb
      initial_eq := hinitial
      final_eq := hfinal
      label?_written := fun w hw => by
        obtain ⟨hs, ht, -⟩ := detour_of_mem hws hw
        have hends : ¬(w.source = q ∨ w.target = q) :=
          not_or.2 ⟨((mem_sources h).1 hs).1, (mem_targets.1 ht).1⟩
        have hwritten : written? ws w.source w.target = some w.label :=
          (written?_eq_some_iff (nodup_of_rewritesAround hws)).2 hw
        rw [hlabel, if_neg hends, hwritten, Option.some_or]
      label?_unwritten := fun p r hp hr hnot => by
        have hwritten : written? ws p r = none := by
          rw [written?_eq_none_iff]
          rintro ⟨_, _, label⟩ hw ⟨rfl, rfl⟩
          exact hnot ⟨label, hw⟩
        rw [hlabel, if_neg (not_or.2 ⟨hp, hr⟩), hwritten, Option.none_or]
      label?_gone := fun p r hpr => by rw [hlabel, if_pos hpr]
      valid := isValid_eliminateState h hb }

/-! ### What can go wrong -/

theorem failsOnly_labelRegex (a : Automaton) (t : SymbolTable) (p q : State) :
    FailsOnly OfLabel (a.labelRegex t p q) := by
  intro error h
  rw [labelRegex] at h
  split at h
  · rename_i text _
    rw [readLabel] at h
    split at h
    · simp at h
    · rename_i cause _
      cases h
      exact ⟨text, cause, rfl⟩
  · simp at h

theorem failsOnly_writeLabel (t : SymbolTable) (e : Regex) :
    FailsOnly OfLabel (writeLabel t e) := by
  intro error h
  rw [writeLabel] at h
  split at h
  · simp at h
  · rename_i cause _
    cases h
    exact ⟨e.display t, cause, rfl⟩

theorem failsOnly_rewritesFrom (a : Automaton) (t : SymbolTable) (q : State) (loop : Regex)
    (rs : List State) (p : State) : FailsOnly OfLabel (a.rewritesFrom t q loop rs p) := by
  rw [rewritesFrom]
  refine (failsOnly_labelRegex a t p q).bind fun into => FailsOnly.mapM (fun r => ?_) rs
  refine (failsOnly_labelRegex a t p r).bind fun direct => ?_
  refine (failsOnly_labelRegex a t q r).bind fun out => ?_
  exact (failsOnly_writeLabel t _).bind fun label => failsOnly_ok _

/-- Whatever the labels are, they alone can keep the transitions around a state from
being written. -/
theorem failsOnly_rewritesAround (a : Automaton) (t : SymbolTable) (q : State) :
    FailsOnly OfLabel (a.rewritesAround t q) := by
  rw [rewritesAround]
  refine (failsOnly_labelRegex a t q q).bind fun loop => ?_
  refine (FailsOnly.mapM (fun p => ?_) _).bind fun wss => failsOnly_ok _
  exact failsOnly_rewritesFrom a t q loop _ p

theorem failsOnly_eliminateState (hif : a.terminals = .ok (i, f)) (hvalid : a.isValid = true)
    (hq : q ∈ a.innerStates) : FailsOnly OfLabel (a.eliminateState t q) := by
  rw [eliminateState, checkInner_of_mem_innerStates hif hvalid hq]
  exact (failsOnly_rewritesAround a t q).bind fun ws => failsOnly_ok _

/-! ### Any order -/

/-- A run over inner states takes one after another, as far as it comes: it stops only at
a label, and what is left is valid and lacks just the states that were eliminated. -/
structure Proceeds (a : Automaton) (qs : List State) (run : Run) : Prop where
  complete : run.failure = none → run.steps.map Step.state = qs
  stops : ∀ q error, run.failure = some (q, error) →
    OfLabel error ∧ ∃ later, run.steps.map Step.state ++ q :: later = qs
  states_eq : run.rest.states = a.states.filter fun x => x ∉ run.steps.map Step.state
  valid : run.rest.isValid = true
  size_add : run.rest.size + run.steps.length = a.innerStates.length + 2

theorem WellLinked.proceeds_nil (h : a.WellLinked) (hif : a.terminals = .ok (i, f))
    (hvalid : a.isValid = true) {failure : Option (State × EliminationError)} {qs : List State}
    (hcomplete : failure = none → qs = [])
    (hstops : ∀ q error, failure = some (q, error) → OfLabel error ∧ ∃ later, q :: later = qs) :
    Proceeds a qs ⟨[], a, failure⟩ where
  complete hnone := (hcomplete hnone).symm
  stops := hstops
  states_eq := (List.filter_eq_self.2 fun x _ => by simp).symm
  valid := hvalid
  size_add := h.size_eq hif

/-- One more state at the beginning. -/
theorem Proceeds.cons {qs : List State} {run : Run} (hq : q ∈ a.innerStates)
    (hb : a.eliminateState t q = .ok (ws, b)) (h : Proceeds b qs run) :
    Proceeds a (q :: qs) { run with steps := ⟨q, ws⟩ :: run.steps } where
  complete hnone := congrArg (q :: ·) (h.complete hnone)
  stops x error hfailure := by
    obtain ⟨hlabel, later, hqs⟩ := h.stops x error hfailure
    exact ⟨hlabel, later, congrArg (q :: ·) hqs⟩
  states_eq := by
    show run.rest.states = _
    rw [h.states_eq, states_eliminateState hb, List.filter_filter]
    refine List.filter_congr fun x _ => ?_
    rw [Bool.eq_iff_iff]
    simp [and_comm]
  valid := h.valid
  size_add := by
    have hless := length_innerStates_eliminateState hq hb
    have hsize := h.size_add
    show run.rest.size + (run.steps.length + 1) = _
    omega

theorem WellLinked.proceeds_eliminateEach {qs : List State} (h : a.WellLinked)
    (hif : a.terminals = .ok (i, f)) (hvalid : a.isValid = true) (hnodup : qs.Nodup)
    (hqs : ∀ q ∈ qs, q ∈ a.innerStates) : Proceeds a qs (eliminateEach t qs a) := by
  -- on the list: a step leaves a valid automaton whose inner states are the others
  induction qs generalizing a with
  | nil =>
    refine h.proceeds_nil hif hvalid (fun _ => rfl) fun q error hfailure => ?_
    cases hfailure
  | cons q qs ih =>
    obtain ⟨hq, hqs⟩ := List.forall_mem_cons.1 hqs
    obtain ⟨hnot, hnodup⟩ := List.nodup_cons.1 hnodup
    rw [eliminateEach]
    rcases hb : a.eliminateState t q with error | ⟨ws, b⟩
    · refine h.proceeds_nil hif hvalid (fun hnone => ?_) fun x error' hfailure => ?_
      · cases hnone
      · cases hfailure
        exact ⟨failsOnly_eliminateState hif hvalid hq error hb, qs, rfl⟩
    · have hinner : ∀ x ∈ qs, x ∈ b.innerStates := by
        intro x hx
        have hne : x ≠ q := fun hxq => hnot (hxq ▸ hx)
        rw [innerStates_eliminateState hb, List.mem_filter, decide_eq_true_eq]
        exact ⟨hqs x hx, hne⟩
      exact (ih (h.eliminateState hb) ((terminals_eliminateState hb).trans hif)
        (isValid_eliminateState h hb) hnodup hinner).cons hq hb

/-- **What a step does, and any order of steps.**  The elimination of a state writes one
transition from each of its predecessors to each of its successors, takes the state away
and leaves everything else alone, and the rest is valid.  In a valid automaton with two
roles apart the inner states may therefore be eliminated in any order: nothing but a
label can be in the way, and after as many steps as there are inner states, and not
before, two states are left. -/
theorem effect_of_elimination (h : a.Reachable) (t : SymbolTable) :
    (∀ q ws b, a.eliminateState t q = .ok (ws, b) → Bypasses q ws a b) ∧
    ∀ i f, a.isValid = true → a.initial = some i → a.final = some f → i ≠ f →
      ∀ qs : List State, qs.Nodup → (∀ q ∈ qs, q ∈ a.innerStates) →
        let run := eliminateEach t qs a
        Proceeds a qs run ∧
          (run.rest.isReduced = true ↔ run.steps.length = a.innerStates.length) := by
  refine ⟨fun q ws b hb => h.wellLinked.bypasses_eliminateState hb, ?_⟩
  intro i f hvalid hi hf hne qs hnodup hqs run
  have hif : a.terminals = .ok (i, f) := terminals_eq_ok_iff.2 ⟨hi, hf, hne⟩
  have hrun : Proceeds a qs run := h.wellLinked.proceeds_eliminateEach hif hvalid hnodup hqs
  refine ⟨hrun, ?_⟩
  have hsize := hrun.size_add
  rw [isReduced, decide_eq_true_eq]
  omega

/-- The states `0` and `1` of the automaton of `a*` may be eliminated the other way
round. -/
theorem effect_of_elimination_backwards :
    let a := ofRegex (.star (.operand (.char 'a')))
    let run := eliminateEach .standard [1, 0] a
    (∃ b, a.eliminateState .standard 1 = .ok ([⟨0, 0, "a"⟩, ⟨0, 3, "a"⟩], b) ∧
      Bypasses 1 [⟨0, 0, "a"⟩, ⟨0, 3, "a"⟩] a b) ∧
    Proceeds a [1, 0] run ∧
    run.steps = [⟨1, [⟨0, 0, "a"⟩, ⟨0, 3, "a"⟩]⟩, ⟨0, [⟨2, 3, "a*"⟩]⟩] ∧
    run.rest.isReduced = true := by
  intro a run
  have ha : a.Reachable := .ofRegex _
  have hb : a.eliminateState .standard 1 = .ok ([⟨0, 0, "a"⟩, ⟨0, 3, "a"⟩],
      (a.write [⟨0, 0, "a"⟩, ⟨0, 3, "a"⟩]).removeState 1) := by
    subst a
    cbv
  have hsteps : run.steps = [⟨1, [⟨0, 0, "a"⟩, ⟨0, 3, "a"⟩]⟩, ⟨0, [⟨2, 3, "a*"⟩]⟩] := by
    subst run a
    cbv
  have hinner : a.innerStates = [0, 1] := by
    subst a
    cbv
  obtain ⟨hstep, horder⟩ := effect_of_elimination ha .standard
  obtain ⟨hrun, hreduced⟩ := horder 2 3 (isValid_ofRegex _) rfl rfl (by decide) [1, 0] (by decide)
    fun q hq => by
      show q ∈ a.innerStates
      rw [hinner]
      exact (List.Perm.swap 0 1 []).mem_iff.1 hq
  refine ⟨⟨_, hb, hstep _ _ _ hb⟩, hrun, hsteps, hreduced.2 ?_⟩
  show run.steps.length = a.innerStates.length
  rw [hsteps, hinner]
  rfl

end Automaton

end RegexAutomata
