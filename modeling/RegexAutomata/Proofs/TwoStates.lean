/-
What is read off two states.

An automaton of two states has four transitions at most: a loop at each of them, the way
forth and the way back.  Whichever of them are there, the expression that is read off
stands for the walks from the initial to the final state, round the loops and back and
forth any number of times (`language_of_two_states`).

All combinations of labels occur: `twoStates` can be made (`reachable_twoStates`), and
has the labels that it is given (`label?_twoStates`).
-/
import RegexAutomata.Proofs.Resolution

namespace RegexAutomata.Automaton

variable {a : Automaton} {t : SymbolTable} {p q i f : State} {look : State → State → Option String}

/-! ### Any labels -/

/-- Transitions with given labels between the states `0` and `1`. -/
def amongTwo (look : State → State → Option String) : List Rewrite :=
  (List.range 2 ×ˢ List.range 2).filterMap fun ends =>
    (look ends.1 ends.2).map fun label => ⟨ends.1, ends.2, label⟩

/-- The states `0` and `1`, the initial and the final one, with given labels. -/
def twoStates (look : State → State → Option String) : Automaton :=
  { empty.addEnds.2.write (amongTwo look) with
    initial := some 0
    final := some 1 }

theorem mem_amongTwo {label : String} :
    ⟨p, q, label⟩ ∈ amongTwo look ↔ (p < 2 ∧ q < 2) ∧ look p q = some label := by
  rw [amongTwo, List.mem_filterMap]
  constructor
  · rintro ⟨⟨x, y⟩, hxy, heq⟩
    obtain ⟨label', hl, heq⟩ := Option.map_eq_some_iff.1 heq
    cases heq
    rw [List.mem_product, List.mem_range, List.mem_range] at hxy
    exact ⟨hxy, hl⟩
  · rintro ⟨⟨hp, hq⟩, hl⟩
    refine ⟨(p, q), List.mem_product.2 ⟨List.mem_range.2 hp, List.mem_range.2 hq⟩, ?_⟩
    rw [hl]
    rfl

theorem contains_addEnds_empty (hp : p < 2) : empty.addEnds.2.contains p = true := by
  have hends : p = empty.nextState ∨ p = empty.nextState + 1 :=
    Nat.le_one_iff_eq_zero_or_eq_one.1 (Nat.le_of_lt_succ hp)
  exact contains_addEnds.2 (hends.imp_right Or.inl)

/-- First the states are added, then the transitions are put, then the roles given. -/
theorem reachable_twoStates (look : State → State → Option String) :
    (twoStates look).Reachable := by
  have h := Reachable.empty.afterAll (addingEnds ++ (writing (amongTwo look) ++
    [.request (.setInitial (some 0)), .request (.setFinal (some 1))]))
  rw [afterAll_append, afterAll_addingEnds, afterAll_append, afterAll_writing, afterAll_cons,
    afterAll_cons, afterAll_nil, after_request, after_request] at h
  have hi : (some 0).all (empty.addEnds.2.write (amongTwo look)).contains = true := by
    rw [Option.all_some, contains_write, contains_addEnds_empty Nat.zero_lt_two]
  have hf : (some 1).all
      ((empty.addEnds.2.write (amongTwo look)).setInitial (some 0)).contains = true := by
    rw [setInitial, if_pos hi]
    show (empty.addEnds.2.write (amongTwo look)).contains 1 = true
    rw [contains_write, contains_addEnds_empty Nat.one_lt_two]
  change (((empty.addEnds.2.write (amongTwo look)).setInitial (some 0)).setFinal
    (some 1)).Reachable at h
  rwa [setFinal, if_pos hf, setInitial, if_pos hi] at h

theorem size_twoStates (look : State → State → Option String) : (twoStates look).size = 2 := by
  show (empty.addEnds.2.write (amongTwo look)).states.length = 2
  rw [states_write]
  rfl

theorem label?_twoStates (look : State → State → Option String) (hp : p < 2) (hq : q < 2) :
    (twoStates look).label? p q = look p q := by
  have hmem : ∀ w ∈ amongTwo look, empty.addEnds.2.contains w.source = true ∧
      empty.addEnds.2.contains w.target = true := by
    rintro ⟨x, y, label⟩ hw
    obtain ⟨⟨hx, hy⟩, -⟩ := mem_amongTwo.1 hw
    exact ⟨contains_addEnds_empty hx, contains_addEnds_empty hy⟩
  have hwritten : ∀ x y label, ⟨x, y, label⟩ ∈ amongTwo look ↔
      (if x < 2 ∧ y < 2 then look x y else none) = some label := by
    intro x y label
    rw [mem_amongTwo]
    by_cases hxy : x < 2 ∧ y < 2 <;> simp [hxy]
  have hnone : empty.label? p q = none := rfl
  show (empty.addEnds.2.write (amongTwo look)).label? p q = _
  rw [label?_write hmem, written?_eq (hwritten p q), if_pos ⟨hp, hq⟩, label?_addEnds, hnone,
    Option.or_none]

/-! ### Reading the expression off -/

/-- **Two states.**  Whatever the four labels of an automaton with two states are, and
whichever of them are missing, as long as those that are there can be read: an expression
that is read off can be read as well, and stands for just the walks from the initial to
the final state.  Nothing is read off only if such an expression is too long or too
deep to be written. -/
theorem language_of_two_states (h : a.Reachable) (hsize : a.size = 2) (hi : a.initial = some i)
    (hf : a.final = some f) (hne : i ≠ f) (hread : a.Readable t) :
    (∀ text, a.finalRegex t = .ok text →
      ∃ e, Regex.parse t text = .ok e ∧
        ∀ w, w ∈ e.language ↔ Walk (a.edges (labelLanguage t)) i f w) ∧
    (∀ error, a.finalRegex t = .error error →
      ∃ e : Regex, e.WellFormed ∧
        (∀ w, w ∈ e.language ↔ Walk (a.edges (labelLanguage t)) i f w) ∧
        ¬ e.Writable t ∧ error = limitError t e) := by
  have hif : a.terminals = .ok (i, f) := terminals_eq_ok_iff.2 ⟨hi, hf, hne⟩
  have hred : a.isReduced = true := decide_eq_true hsize
  obtain ⟨e, hwf, hlanguage, hwrite⟩ := h.wellLinked.exists_finalRegex_eq hif hred hread
  have hwalks : ∀ w, w ∈ e.language ↔ Walk (a.edges (labelLanguage t)) i f w := by
    intro w
    rw [hlanguage, language, accepted_eq _ hi hf]
    rfl
  rw [hwrite]
  constructor
  · intro text htext
    exact ⟨e, ((writeLabel_eq_ok_iff hwf).1 htext).2, hwalks⟩
  · intro error herror
    exact ⟨e, hwf, hwalks, (writeLabel_eq_error_iff hwf).1 herror⟩

/-- All four transitions are there, with a letter on each. -/
theorem language_of_two_states_letters :
    let look : State → State → Option String := fun p q =>
      some (if p = 0 then if q = 0 then "a" else "b" else if q = 0 then "c" else "d")
    let a := twoStates look
    (∀ p < 2, ∀ q < 2, a.label? p q = look p q) ∧
      a.finalRegex .standard = .ok "a*|b|(d+c|a*|b)*" ∧
      ∃ e, Regex.parse .standard "a*|b|(d+c|a*|b)*" = .ok e ∧
        ∀ w, w ∈ e.language ↔ Walk (a.edges (labelLanguage .standard)) 0 1 w := by
  intro look a
  have ha : a.Reachable := reachable_twoStates look
  have hread : a.Readable .standard :=
    ha.wellLinked.readable_of_transitions (by subst a look; cbv)
  have htext : a.finalRegex .standard = .ok "a*|b|(d+c|a*|b)*" := by
    subst a look
    cbv
  refine ⟨fun p hp q hq => label?_twoStates look hp hq, htext, ?_⟩
  exact (language_of_two_states ha (size_twoStates look) rfl rfl (by decide) hread).1 _ htext

end RegexAutomata.Automaton
