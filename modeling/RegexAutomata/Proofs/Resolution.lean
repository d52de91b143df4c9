/-
What an automaton is turned into, without a look at its transitions.

The ways of an automaton are resolved by taking its inner states out, one after
another, and reading the last expression off (`Ways.resolve`).  An elimination that
comes to its end prints just this (`Ready.eq_display_of_eliminate`): which transitions
are visited, which are written and which are left as they are makes no difference.

So the text depends on nothing but the states, the roles and the expressions on the
labels (`eliminate_congr`).
-/
import RegexAutomata.Proofs.Histories
import RegexAutomata.Proofs.Ways

namespace RegexAutomata

/-- Take states out, one after another, and read off what leads from one of the last
two states to the other. -/
def Ways.resolve (m : Ways) (i f : State) (qs : List State) : Regex :=
  (qs.foldl Ways.bypass m).through i f

namespace Automaton

variable {a b : Automaton} {t : SymbolTable} {p q i f : State} {text x y : String}

/-! ### Automata that can be turned into a text -/

/-- All labels can be read. -/
def Readable (t : SymbolTable) (a : Automaton) : Prop :=
  ∀ p q label, a.label? p q = some label → ∃ e, Regex.parse t label = .ok e

/-- It is enough to read the labels of the listed transitions. -/
theorem WellLinked.readable_of_transitions (h : a.WellLinked)
    (hall : (a.transitions.all fun e => (Regex.parse t e.2.2).toOption.isSome) = true) :
    a.Readable t := by
  intro p q label hl
  have hparse := List.all_eq_true.1 hall _ (h.mem_transitions.2 hl)
  rcases he : Regex.parse t label with cause | e
  · rw [he] at hparse
    cases hparse
  · exact ⟨e, rfl⟩

theorem exists_terminals_of_eliminate (htext : a.eliminate t = .ok text) :
    ∃ i f, a.terminals = .ok (i, f) := by
  refine of_eliminateWithin (P := fun a => ∃ i f, a.terminals = .ok (i, f)) ?_ ?_ htext
  · intro a htext
    obtain ⟨i, f, -, -, -, -, hif, -⟩ := exists_of_finalRegex htext
    exact ⟨i, f, hif⟩
  · intro a b q ws hb _
    obtain ⟨hcheck, -, -⟩ := eliminateState_eq_ok_iff.1 hb
    obtain ⟨i, f, hif, -⟩ := checkInner_eq_ok_iff.1 hcheck
    exact ⟨i, f, hif⟩

/-- Two expressions that are read alike are the same way. -/
theorem WellLinked.ways_congr (ha : a.WellLinked) (hb : b.WellLinked)
    (hstates : a.states = b.states)
    (hlabels : ∀ p ∈ a.states, ∀ q ∈ a.states, a.labelRegex t p q = b.labelRegex t p q) :
    a.ways t = b.ways t := by
  funext p q
  by_cases hpq : p ∈ a.states ∧ q ∈ a.states
  · rw [ways, ways, hlabels p hpq.1 q hpq.2]
  · -- no transition joins what is not there
    have hnone : ∀ c : Automaton, c.WellLinked → c.states = a.states → c.label? p q = none := by
      intro c hc hcs
      by_contra hlabel
      obtain ⟨label, hl⟩ := Option.ne_none_iff_exists'.1 hlabel
      obtain ⟨hp, hq⟩ := hc.contains_of_label? hl
      exact hpq ⟨hcs ▸ mem_states.2 hp, hcs ▸ mem_states.2 hq⟩
    rw [ways_of_label?_eq_none (hnone a ha rfl), ways_of_label?_eq_none (hnone b hb hstates.symm)]

theorem innerStates_congr (hstates : a.states = b.states) (hinitial : a.initial = b.initial)
    (hfinal : a.final = b.final) : a.innerStates = b.innerStates := by
  have hterminal : a.isTerminal = b.isTerminal := by
    funext q
    rw [isTerminal, isTerminal, hinitial, hfinal]
  rw [innerStates, innerStates, hstates, hterminal]

/-! ### The text is resolved from the ways -/

/-- An elimination that comes to its end prints what the ways are resolved to. -/
theorem Ready.eq_display_of_eliminateWithin (h : Ready t a) (hif : a.terminals = .ok (i, f))
    {rounds : Nat} (hlen : a.innerStates.length ≤ rounds)
    (htext : eliminateWithin t rounds a = .ok text) :
    text = ((a.ways t).resolve i f a.innerStates).display t := by
  -- on the list of inner states: each round takes the first of them out of the ways
  obtain ⟨qs, hqs⟩ : ∃ qs, a.innerStates = qs := ⟨_, rfl⟩
  rw [hqs] at hlen ⊢
  induction qs generalizing a rounds with
  | nil =>
    rw [eliminateWithin_of_nil hqs, h.finalRegex_eq_writeLabel hif hqs] at htext
    have hwf : ((a.ways t).through i f).WellFormed :=
      wellFormed_throughTwo (h.wellFormed_ways i i) (h.wellFormed_ways i f)
        (h.wellFormed_ways f i) (h.wellFormed_ways f f)
    exact ((writeLabel_eq_ok_iff hwf).1 htext).1.symm
  | cons q qs ih =>
    obtain ⟨rounds, rfl⟩ := Nat.exists_eq_add_of_lt (Nat.lt_of_lt_of_le (Nat.succ_pos _) hlen)
    rw [Nat.zero_add, eliminateWithin_of_cons hqs] at htext
    obtain ⟨⟨ws, b⟩, hb, htext⟩ := bind_eq_ok_iff.1 htext
    have hless : qs.length ≤ rounds := by
      rw [List.length_cons] at hlen
      omega
    have hrest := ih (h.eliminateState hb) ((terminals_eliminateState hb).trans hif) htext hless
      (innerStates_of_cons hqs hb)
    rw [hrest, h.linked.ways_eliminateState hb]
    rfl

theorem Ready.eq_display_of_eliminate (h : Ready t a) (hif : a.terminals = .ok (i, f))
    (htext : a.eliminate t = .ok text) :
    text = ((a.ways t).resolve i f a.innerStates).display t :=
  h.eq_display_of_eliminateWithin hif (length_innerStates_le a) htext

/-- **Only what the labels say.**  Two automata with the same states and roles, whose
labels are read as the same expressions, are turned into the same text, whichever
transitions they have and however their labels are spelt. -/
theorem eliminate_congr (ha : a.Reachable) (hb : b.Reachable) (hstates : a.states = b.states)
    (hinitial : a.initial = b.initial) (hfinal : a.final = b.final)
    (hvalid : a.isValid = true) (hvalid' : b.isValid = true)
    (hread : a.Readable t) (hread' : b.Readable t)
    (hlabels : ∀ p ∈ a.states, ∀ q ∈ a.states, a.labelRegex t p q = b.labelRegex t p q)
    (hx : a.eliminate t = .ok x) (hy : b.eliminate t = .ok y) : x = y := by
  obtain ⟨i, f, hif⟩ := exists_terminals_of_eliminate hx
  have hif' : b.terminals = .ok (i, f) := by
    rw [← hif, terminals, terminals, hinitial, hfinal]
  have hready : Ready t a := ⟨ha.wellLinked, ⟨i, f, hif⟩, hvalid, hread⟩
  have hready' : Ready t b := ⟨hb.wellLinked, ⟨i, f, hif'⟩, hvalid', hread'⟩
  calc x = ((a.ways t).resolve i f a.innerStates).display t :=
        hready.eq_display_of_eliminate hif hx
    _ = ((b.ways t).resolve i f b.innerStates).display t := by
        rw [ha.wellLinked.ways_congr hb.wellLinked hstates hlabels,
          innerStates_congr hstates hinitial hfinal]
    _ = y := (hready'.eq_display_of_eliminate hif' hy).symm

/-- One automaton of `a|b` has its labels as they were built; the other one has needless
brackets, labels that can be shortened, and transitions that read nothing at all. -/
theorem eliminate_congr_spelt :
    let a := (ofRegex (.concat (.operand (.char 'a')) (.operand (.char 'b')))).connect 1 1 "c"
    let b := ((((ofRegex (.concat (.operand (.char 'a')) (.operand (.char 'b')))).connect 1 1
      "(c+∅)").connect 0 1 "((a))").connect 3 0 "d|∅").connect 0 3 "∅"
    ∃ x y, a.eliminate .standard = .ok x ∧ b.eliminate .standard = .ok y ∧ x = y := by
  intro a b
  have ha : a.Reachable := (Reachable.ofRegex _).connect (by cbv) (by cbv)
  have hb : b.Reachable :=
    ((((Reachable.ofRegex _).connect (by cbv) (by cbv)).connect (by cbv) (by cbv)).connect
      (by cbv) (by cbv)).connect (by cbv) (by cbv)
  have hread : a.Readable .standard := ha.wellLinked.readable_of_transitions (by subst a; cbv)
  have hread' : b.Readable .standard := hb.wellLinked.readable_of_transitions (by subst b; cbv)
  have hlabels : ∀ p ∈ a.states, ∀ q ∈ a.states,
      a.labelRegex .standard p q = b.labelRegex .standard p q := by
    have hstates : a.states = [0, 1, 3] := by subst a; cbv
    rw [hstates]
    simp only [List.forall_mem_cons, List.not_mem_nil, false_imp_iff, implies_true, and_true]
    subst a b
    refine ⟨⟨?_, ?_, ?_⟩, ⟨?_, ?_, ?_⟩, ?_, ?_, ?_⟩ <;> cbv
  have hx : a.eliminate .standard = .ok "a|c*|b" := by subst a; cbv
  have hy : b.eliminate .standard = .ok "a|c*|b" := by subst b; cbv
  refine ⟨_, _, hx, hy, eliminate_congr ha hb ?_ ?_ ?_ ?_ ?_ hread hread' hlabels hx hy⟩ <;>
    subst a b <;> cbv

end Automaton

end RegexAutomata
