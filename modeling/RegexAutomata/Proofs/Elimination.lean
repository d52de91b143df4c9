/-
Eliminating states keeps what an automaton accepts.

`label?_eliminateState` says what an elimination does to the transitions, and
`edges_eliminateState` what that means for the languages on them: around the
state, the direct way is joined by the detours.  Walks are cut where they pass
through the state (`walks_bypass`), so both automata accept the same texts.

* `language_eliminateState` — one state may be eliminated;
* `language_of_eliminations` — any number of states, in any order;
* `language_eliminateEach` — the states of a list, up to the first failure.
-/
import RegexAutomata.Proofs.Labels
import RegexAutomata.Proofs.Reachable

namespace RegexAutomata.Automaton

open Computability

variable {a b : Automaton} {t : SymbolTable} {p q r i f : State} {e : Regex} {text : String}
  {ws : List Rewrite}

/-! ### What is checked beforehand -/

theorem terminals_eq_ok_iff :
    a.terminals = .ok (i, f) ↔ a.initial = some i ∧ a.final = some f ∧ i ≠ f := by
  rw [terminals]
  rcases a.initial with _ | i'
  · simp
  · rcases a.final with _ | f'
    · simp
    · by_cases hif : i' = f'
      · rw [hif]
        simp only [if_true, reduceCtorEq, Option.some.injEq, false_iff]
        rintro ⟨rfl, rfl, h⟩
        exact h rfl
      · simp only [if_neg hif, Except.ok.injEq, Prod.mk.injEq, Option.some.injEq]
        constructor
        · rintro ⟨rfl, rfl⟩
          exact ⟨rfl, rfl, hif⟩
        · rintro ⟨rfl, rfl, -⟩
          exact ⟨rfl, rfl⟩

theorem checkInner_eq_ok_iff :
    a.checkInner q = .ok () ↔
      ∃ i f, a.terminals = .ok (i, f) ∧ a.isValid = true ∧ a.contains q = true ∧ q ≠ i ∧
        q ≠ f := by
  rw [checkInner, bind_eq_ok_iff]
  have hterminal : ∀ i f, a.terminals = .ok (i, f) →
      (a.isTerminal q = true ↔ q = i ∨ q = f) := fun i f h => by
    obtain ⟨hi, hf, -⟩ := terminals_eq_ok_iff.1 h
    rw [isTerminal, hi, hf, Bool.or_eq_true, decide_eq_true_eq, decide_eq_true_eq,
      Option.some.injEq, Option.some.injEq]
    exact or_congr eq_comm eq_comm
  constructor
  · rintro ⟨⟨i, f⟩, h, hcheck⟩
    rcases hv : a.isValid with _ | _
    · simp [hv] at hcheck
    · rcases hc : a.contains q with _ | _
      · simp [hv, hc] at hcheck
      · by_cases hq : a.isTerminal q = true
        · simp [hv, hc, hq] at hcheck
        · rw [hterminal i f h] at hq
          exact ⟨i, f, h, rfl, rfl, fun hqi => hq (Or.inl hqi), fun hqf => hq (Or.inr hqf)⟩
  · rintro ⟨i, f, h, hv, hc, hqi, hqf⟩
    have hq : ¬ a.isTerminal q = true := by
      rw [hterminal i f h]
      rintro (hq | hq)
      · exact hqi hq
      · exact hqf hq
    exact ⟨(i, f), h, by simp [hv, hc, hq]⟩

/-! ### The transitions afterwards -/

theorem mem_sources (h : a.WellLinked) :
    p ∈ a.sources q ↔ p ≠ q ∧ ∃ label, a.label? p q = some label := by
  rw [sources, List.mem_filter, h.mem_predecessors, and_comm]
  simp

theorem mem_targets : r ∈ a.targets q ↔ r ≠ q ∧ ∃ label, a.label? q r = some label := by
  rw [targets, List.mem_filter, mem_map_successors, and_comm]
  simp

/-- The transitions around a state lie between states that are there. -/
theorem contains_of_rewritesAround (h : a.WellLinked) (hws : a.rewritesAround t q = .ok ws) :
    ∀ w ∈ ws, a.contains w.source = true ∧ a.contains w.target = true := by
  intro w hw
  obtain ⟨hs, ht, -⟩ := detour_of_mem hws hw
  obtain ⟨-, label, hs⟩ := (mem_sources h).1 hs
  obtain ⟨-, label', ht⟩ := mem_targets.1 ht
  exact ⟨(h.contains_of_label? hs).1, (h.contains_of_label? ht).2⟩

/-- The transitions that were written are put around the state, and its own
are gone. -/
theorem label?_eliminateState (h : a.WellLinked) (hb : a.eliminateState t q = .ok (ws, b))
    (x y : State) :
    b.label? x y = if x = q ∨ y = q then none else (written? ws x y).or (a.label? x y) := by
  obtain ⟨-, hws, rfl⟩ := eliminateState_eq_ok_iff.1 hb
  rw [label?_removeState (h.write ws), label?_write (contains_of_rewritesAround h hws)]

/-- Away from the state a transition is left alone, because half of its detour is
missing, or it is the detour. -/
theorem label?_or_detour (h : a.WellLinked) (hb : a.eliminateState t q = .ok (ws, b))
    (hp : p ≠ q) (hr : r ≠ q) :
    (b.label? p r = a.label? p r ∧ (a.label? p q = none ∨ a.label? q r = none)) ∨
      ∃ label, b.label? p r = some label ∧ a.Detour t q ⟨p, r, label⟩ := by
  have hlabel := label?_eliminateState h hb p r
  obtain ⟨-, hws, -⟩ := eliminateState_eq_ok_iff.1 hb
  rw [if_neg (not_or.2 ⟨hp, hr⟩)] at hlabel
  rcases hwritten : written? ws p r with _ | label
  · rw [hwritten, Option.none_or] at hlabel
    refine Or.inl ⟨hlabel, ?_⟩
    rcases hpq : a.label? p q with _ | into
    · exact Or.inl rfl
    · rcases hqr : a.label? q r with _ | out
      · exact Or.inr rfl
      · -- with both halves the detour would have been written
        obtain ⟨label, hmem⟩ := exists_mem_rewritesAround hws
          ((mem_sources h).2 ⟨hp, into, hpq⟩) (mem_targets.2 ⟨hr, out, hqr⟩)
        exact absurd ⟨rfl, rfl⟩ (written?_eq_none_iff.1 hwritten _ hmem)
  · rw [hwritten, Option.some_or] at hlabel
    obtain ⟨-, -, hd⟩ := detour_of_mem hws (mem_of_written? hwritten)
    exact Or.inr ⟨label, hlabel, hd⟩

theorem contains_eliminateState (hb : a.eliminateState t q = .ok (ws, b)) (x : State) :
    b.contains x = if x = q then false else a.contains x := by
  obtain ⟨-, -, rfl⟩ := eliminateState_eq_ok_iff.1 hb
  rw [contains_removeState, contains_write]

theorem roles_eliminateState (hb : a.eliminateState t q = .ok (ws, b)) :
    b.initial = a.initial ∧ b.final = a.final := by
  obtain ⟨hcheck, -, rfl⟩ := eliminateState_eq_ok_iff.1 hb
  obtain ⟨i, f, hif, -, hq, hqi, hqf⟩ := checkInner_eq_ok_iff.1 hcheck
  obtain ⟨hi, hf, -⟩ := terminals_eq_ok_iff.1 hif
  have hcontains : (a.write ws).contains q = true := by rw [contains_write, hq]
  rw [initial_removeState _ q hcontains, final_removeState _ q hcontains, initial_write,
    final_write, hi, hf, if_neg, if_neg]
  · exact ⟨rfl, rfl⟩
  · rintro h
    exact hqf (Option.some.inj h).symm
  · rintro h
    exact hqi (Option.some.inj h).symm

theorem terminals_eliminateState (hb : a.eliminateState t q = .ok (ws, b)) :
    b.terminals = a.terminals := by
  obtain ⟨hinitial, hfinal⟩ := roles_eliminateState hb
  rw [terminals, terminals, hinitial, hfinal]

/-! ### What is read on the transitions afterwards -/

theorem labelLanguage_of_parse (h : Regex.parse t text = .ok e) :
    labelLanguage t text = e.language := by
  rw [labelLanguage, h]

theorem language_of_labelRegex (h : a.labelRegex t p q = .ok e) :
    e.language = a.edges (labelLanguage t) p q := by
  rw [labelRegex] at h
  split at h
  · rename_i text hlabel
    obtain ⟨e', he', rfl⟩ := readLabel_eq_ok_iff.1 h
    rw [edges_of_label? hlabel, labelLanguage_of_parse he', Regex.language_normalize]
  · rename_i hlabel
    cases h
    rw [edges_eq_zero hlabel, Regex.language_emptySet]

theorem language_around (direct into loop out : Regex) :
    (around direct into loop out).language =
      direct.language + into.language * loop.language∗ * out.language := by
  rw [around, Regex.language_either, Regex.language_followedBy, Regex.language_followedBy,
    Regex.language_repeated]

/-- What is written around a state says what can be read directly and through
the state. -/
theorem Detour.language {w : Rewrite} (h : a.Detour t q w) :
    labelLanguage t w.label =
      a.edges (labelLanguage t) w.source w.target +
        a.edges (labelLanguage t) w.source q * (a.edges (labelLanguage t) q q)∗ *
          a.edges (labelLanguage t) q w.target := by
  obtain ⟨direct, into, loop, out, hd, hi, hl, ho, hw⟩ := h
  have hwf := wellFormed_around (wellFormed_of_labelRegex hd) (wellFormed_of_labelRegex hi)
    (wellFormed_of_labelRegex hl) (wellFormed_of_labelRegex ho)
  rw [labelLanguage_of_parse ((writeLabel_eq_ok_iff hwf).1 hw).2, language_around,
    language_of_labelRegex hd, language_of_labelRegex hi, language_of_labelRegex hl,
    language_of_labelRegex ho]

theorem edges_eliminateState (h : a.WellLinked) (hb : a.eliminateState t q = .ok (ws, b))
    (hp : p ≠ q) (hr : r ≠ q) :
    b.edges (labelLanguage t) p r =
      a.edges (labelLanguage t) p r +
        a.edges (labelLanguage t) p q * (a.edges (labelLanguage t) q q)∗ *
          a.edges (labelLanguage t) q r := by
  rcases label?_or_detour h hb hp hr with ⟨hlabel, hhalf⟩ | ⟨label, hlabel, hd⟩
  · rw [edges, hlabel, ← edges]
    rcases hhalf with h0 | h0
    · rw [edges_eq_zero h0, zero_mul, zero_mul, add_zero]
    · rw [edges_eq_zero h0, mul_zero, add_zero]
  · rw [edges_of_label? hlabel]
    exact hd.language

/-! ### The language -/

theorem WellLinked.language_eliminateState (h : a.WellLinked)
    (hb : a.eliminateState t q = .ok (ws, b)) : b.language t = a.language t := by
  obtain ⟨hcheck, -, -⟩ := eliminateState_eq_ok_iff.1 hb
  obtain ⟨i, f, hif, -, -, hqi, hqf⟩ := checkInner_eq_ok_iff.1 hcheck
  obtain ⟨hi, hf, -⟩ := terminals_eq_ok_iff.1 hif
  obtain ⟨hinitial, hfinal⟩ := roles_eliminateState hb
  rw [language, language, accepted_eq _ (hinitial.trans hi) (hfinal.trans hf),
    accepted_eq _ hi hf]
  -- neither end of a walk is the state that is gone
  refine walks_bypass (fun p r hp hr => edges_eliminateState h hb hp hr) (fun p r hpr => ?_)
    hqi.symm hqf.symm
  exact edges_eq_zero (by rw [label?_eliminateState h hb, if_pos hpr])

/-- One elimination that succeeds. -/
def EliminatesTo (t : SymbolTable) (a b : Automaton) : Prop :=
  ∃ q ws, a.eliminateState t q = .ok (ws, b)

/-- **Elimination keeps the language.**  A state that is eliminated takes
nothing away from what the automaton accepts and adds nothing to it; so do any
number of states, in any order. -/
theorem language_of_eliminations (h : a.Reachable) (t : SymbolTable) :
    (∀ q ws b, a.eliminateState t q = .ok (ws, b) → b.language t = a.language t) ∧
    (∀ b, Relation.ReflTransGen (EliminatesTo t) a b → b.language t = a.language t) := by
  constructor
  · intro q ws b hb
    exact h.wellLinked.language_eliminateState hb
  · intro b hb
    -- the automata on the way can be made as well
    have key : b.Reachable ∧ b.language t = a.language t := by
      induction hb with
      | refl => exact ⟨h, rfl⟩
      | tail _ hstep ih =>
        obtain ⟨q, ws, hb⟩ := hstep
        obtain ⟨hc, hlanguage⟩ := ih
        refine ⟨hc.eliminateState hb, ?_⟩
        rw [hc.wellLinked.language_eliminateState hb, hlanguage]
    exact key.2

/-- The states `0` and `1` of the automaton of `a*` may be eliminated in turn. -/
theorem language_of_eliminations_star :
    ∃ b c : Automaton, EliminatesTo .standard (ofRegex (.star (.operand (.char 'a')))) b ∧
      EliminatesTo .standard b c ∧ c.label? 2 3 = some "a*" ∧
      b.language .standard = (ofRegex (.star (.operand (.char 'a')))).language .standard ∧
      c.language .standard = (ofRegex (.star (.operand (.char 'a')))).language .standard := by
  have hb : (ofRegex (.star (.operand (.char 'a')))).eliminateState .standard 0 =
      .ok ([⟨1, 1, "a"⟩, ⟨2, 1, "a"⟩],
        ((ofRegex (.star (.operand (.char 'a')))).write
          [⟨1, 1, "a"⟩, ⟨2, 1, "a"⟩]).removeState 0) := by cbv
  have hc : (((ofRegex (.star (.operand (.char 'a')))).write
      [⟨1, 1, "a"⟩, ⟨2, 1, "a"⟩]).removeState 0).eliminateState .standard 1 =
      .ok ([⟨2, 3, "a*"⟩],
        ((((ofRegex (.star (.operand (.char 'a')))).write
          [⟨1, 1, "a"⟩, ⟨2, 1, "a"⟩]).removeState 0).write [⟨2, 3, "a*"⟩]).removeState 1) := by
    cbv
  have h := language_of_eliminations (.ofRegex (.star (.operand (.char 'a')))) .standard
  exact ⟨_, _, ⟨0, _, hb⟩, ⟨1, _, hc⟩, by cbv, h.1 _ _ _ hb,
    h.2 _ (.tail (.tail .refl ⟨0, _, hb⟩) ⟨1, _, hc⟩)⟩

/-- Eliminating the states of a list keeps the language as far as it comes. -/
theorem language_eliminateEach (h : a.WellLinked) (t : SymbolTable) (qs : List State) :
    (eliminateEach t qs a).rest.language t = a.language t := by
  induction qs generalizing a with
  | nil => rfl
  | cons q qs ih =>
    rw [eliminateEach]
    rcases hb : a.eliminateState t q with error | ⟨ws, b⟩
    · rfl
    · show (eliminateEach t qs b).rest.language t = a.language t
      rw [ih (h.eliminateState hb), h.language_eliminateState hb]

end RegexAutomata.Automaton
