/-
Folding one state of an automaton into another.

Every transition of the absorbed state becomes one of the kept state, and so
do its roles.  The transitions that leave are moved before those that enter,
each kind in ascending order; a transition that is moved onto another one
takes its place.
-/
import RegexAutomata.Automaton.Basic

namespace RegexAutomata.Automaton

/-- Fold the state `absorb` into the state `keep`. -/
def merge (a : Automaton) (keep absorb : State) : Automaton :=
  match a.row? absorb with
  | none => a
  | some links =>
    if keep = absorb || !a.contains keep then a
    else
      let wasInitial := a.initial = some absorb
      let wasFinal := a.final = some absorb
      let leaving := links.out.entries.map fun e => (if e.1 = absorb then keep else e.1, e.2)
      let entering := links.into.entries.filter fun e => e.1 ≠ absorb
      let b := a.removeState absorb
      let b := leaving.foldl (fun b e => b.connect keep e.1 e.2) b
      let b := entering.foldl (fun b e => b.connect e.1 keep e.2) b
      { b with
        initial := if wasInitial then some keep else b.initial
        final := if wasFinal then some keep else b.final }

end RegexAutomata.Automaton
