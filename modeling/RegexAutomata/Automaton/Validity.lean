/-
Valid automata: both roles are given, and every state can be reached from the
initial one.

The states that can be reached are marked one by one.  A state that has been
marked is put on a list of those whose transitions are still to be followed;
whatever they enter is marked in turn, unless it is marked already.  So every
state gets onto the list at most once, and the search ends.
-/
import RegexAutomata.Automaton.Basic

namespace RegexAutomata.Automaton

/-- A search for the states that can be reached. -/
structure Search where
  /-- Which states have been reached. -/
  marks : Array Bool
  /-- Those among them whose transitions are still to be followed. -/
  todo : List State

namespace Search

/-- Reach a state. -/
def visit (s : Search) (q : State) : Search :=
  if s.marks[q]? = some false then ⟨s.marks.setIfInBounds q true, q :: s.todo⟩ else s

/-- A bound on the steps that are left: two for a state that has not been
reached, one for a state on the list. -/
def weight (s : Search) : Nat := 2 * s.marks.count false + s.todo.length

theorem count_setIfInBounds_lt {marks : Array Bool} {q : Nat} (h : marks[q]? = some false) :
    (marks.setIfInBounds q true).count false < marks.count false := by
  obtain ⟨hq, he⟩ := Array.getElem?_eq_some_iff.1 h
  have hset : marks.setIfInBounds q true = marks.set q true hq := by
    simp [Array.setIfInBounds, hq]
  have hpos : 0 < marks.count false := Array.count_pos_iff.2 (he ▸ Array.getElem_mem hq)
  rw [hset, Array.count_set, he]
  change marks.count false - 1 + 0 < marks.count false
  omega

theorem weight_visit_le (s : Search) (q : State) : (s.visit q).weight ≤ s.weight := by
  unfold visit
  split
  · rename_i h
    have := count_setIfInBounds_lt h
    simp only [weight, List.length_cons]
    omega
  · exact Nat.le_refl _

theorem weight_foldl_visit_le (qs : List State) (s : Search) :
    (qs.foldl visit s).weight ≤ s.weight := by
  induction qs generalizing s with
  | nil => exact Nat.le_refl _
  | cons q qs ih => exact Nat.le_trans (ih (s.visit q)) (weight_visit_le s q)

/-- Follow the transitions of all states on the list, where `next` tells the
states that can be entered from a state. -/
def finish (next : State → List State) (s : Search) : Array Bool :=
  match _h : s.todo with
  | [] => s.marks
  | q :: rest => finish next ((next q).foldl visit ⟨s.marks, rest⟩)
termination_by s.weight
decreasing_by
  have := weight_foldl_visit_le (next q) ⟨s.marks, rest⟩
  simp only [weight, _h, List.length_cons] at this ⊢
  omega

end Search

/-- A mark for every state number: whether it can be reached from `q`. -/
def marksFrom (a : Automaton) (q : State) : Array Bool :=
  let start : Search := ⟨Array.replicate a.rows.size false, []⟩
  (start.visit q).finish fun p => (a.successors p).map Prod.fst

/-- Whether both roles are given and every state can be reached. -/
def isValid (a : Automaton) : Bool :=
  match a.initial, a.final with
  | some i, some _ =>
    let marks := a.marksFrom i
    a.states.all fun q => marks[q]? = some true
  | _, _ => false

end RegexAutomata.Automaton
