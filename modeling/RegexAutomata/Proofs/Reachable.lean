/-
The automata that can be made, and what they accept.

An automaton is `Reachable` if it comes out of some run of changes: it starts
empty or as the automaton of an expression, and then every request that is
granted and every state that is eliminated makes another one.  Both ends of
every transition agree in all of them (`Reachable.wellLinked`).

An automaton accepts what is read on the walks from its initial to its final
state, where a label stands for the expression that it spells, and for nothing
if it spells none.
-/
import RegexAutomata.Proofs.Language
import RegexAutomata.Proofs.Rewriting
import RegexAutomata.Proofs.Walks

namespace RegexAutomata.Automaton

variable {a b : Automaton} {t : SymbolTable} {p q : State}

/-! ### Automata that can be made -/

/-- Automata that come out of some run of changes. -/
inductive Reachable : Automaton → Prop
  /-- The automaton without states. -/
  | empty : Reachable empty
  /-- The automaton of an expression. -/
  | ofRegex (e : Regex) : Reachable (ofRegex e)
  /-- A request that is granted. -/
  | perform {a b : Automaton} {r : Request} (h : Reachable a) (hb : a.perform r = .ok b) :
      Reachable b
  /-- A state that is eliminated. -/
  | eliminateState {a b : Automaton} {t : SymbolTable} {q : State} {ws : List Rewrite}
      (h : Reachable a) (hb : a.eliminateState t q = .ok (ws, b)) : Reachable b

theorem perform_eq_ok_iff {r : Request} :
    a.perform r = .ok b ↔ a.fault? r = none ∧ a.apply r = b := by
  rw [perform]
  rcases a.fault? r with _ | fault <;> simp

/-- A transition may be put between any two states. -/
theorem Reachable.connect {label : String} (h : a.Reachable) (hp : a.contains p = true)
    (hq : a.contains q = true) : (a.connect p q label).Reachable := by
  refine .perform (r := .connect p q label) h (perform_eq_ok_iff.2 ⟨?_, rfl⟩)
  simp [fault?, hp, hq]

/-- What an elimination that succeeds has done. -/
theorem eliminateState_eq_ok_iff {ws : List Rewrite} :
    a.eliminateState t q = .ok (ws, b) ↔
      a.checkInner q = .ok () ∧ a.rewritesAround t q = .ok ws ∧
        (a.write ws).removeState q = b := by
  rw [eliminateState]
  rcases a.checkInner q with error | ⟨⟩
  · constructor
    · intro h
      cases h
    · rintro ⟨h, -⟩
      cases h
  · rcases a.rewritesAround t q with error | vs
    · constructor
      · intro h
        cases h
      · rintro ⟨-, h, -⟩
        cases h
    · constructor
      · intro h
        cases h
        exact ⟨rfl, rfl, rfl⟩
      · rintro ⟨-, h, rfl⟩
        cases h
        rfl

theorem WellLinked.eliminateState {ws : List Rewrite} (h : a.WellLinked)
    (hb : a.eliminateState t q = .ok (ws, b)) : b.WellLinked := by
  obtain ⟨-, -, rfl⟩ := eliminateState_eq_ok_iff.1 hb
  exact (h.write ws).removeState q

/-- Both ends of every transition agree, whatever was done. -/
theorem Reachable.wellLinked (h : Reachable a) : a.WellLinked := by
  induction h with
  | empty => exact wellLinked_empty
  | ofRegex e => exact wellLinked_ofRegex e
  | @perform a b r _ hb ih =>
    obtain ⟨-, rfl⟩ := perform_eq_ok_iff.1 hb
    exact ih.apply r
  | eliminateState _ hb ih => exact ih.eliminateState hb

/-! ### What an automaton accepts -/

/-- The texts that may be read from `p` to `q` in one step. -/
def edges (reads : String → Language Char) (a : Automaton) (p q : State) : Language Char :=
  (a.label? p q).elim 0 reads

/-- The texts that are read on the walks from the initial to the final
state. -/
def accepted (reads : String → Language Char) (a : Automaton) : Language Char :=
  {w | ∃ i f, a.initial = some i ∧ a.final = some f ∧ Walk (a.edges reads) i f w}

/-- The texts that a label stands for. -/
def labelLanguage (t : SymbolTable) (text : String) : Language Char :=
  match Regex.parse t text with
  | .ok e => e.language
  | .error _ => 0

/-- The texts that an automaton accepts. -/
def language (t : SymbolTable) (a : Automaton) : Language Char := a.accepted (labelLanguage t)

theorem accepted_eq (reads : String → Language Char) {i f : State} (hi : a.initial = some i)
    (hf : a.final = some f) : a.accepted reads = walks (a.edges reads) i f := by
  ext w
  constructor
  · rintro ⟨i', f', hi', hf', hw⟩
    rw [hi] at hi'
    rw [hf] at hf'
    cases hi'
    cases hf'
    exact hw
  · intro hw
    exact ⟨i, f, hi, hf, hw⟩

theorem edges_of_label? {reads : String → Language Char} {text : String}
    (h : a.label? p q = some text) : a.edges reads p q = reads text := by
  rw [edges, h]
  rfl

theorem edges_eq_zero {reads : String → Language Char} (h : a.label? p q = none) :
    a.edges reads p q = 0 := by
  rw [edges, h]
  rfl

end RegexAutomata.Automaton
