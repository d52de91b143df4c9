/-
An automaton drawn as a graph, from left to right.

Every state is a circle that shows its name, the final state with two borders.
An arrow that starts at an invisible point leads to the initial state.
-/
import RegexAutomata.Automaton.Basic
import RegexAutomata.Dot.Graph

namespace RegexAutomata.Automaton

/-- How a state is drawn. -/
def nodeStyle (a : Automaton) (q : State) (style : Dot.NodeStyle) : Dot.NodeStyle :=
  { style with
    label := some q.name
    shape := some "circle"
    peripheries := if a.final = some q then some "2" else style.peripheries }

/-- The invisible point before the initial state. -/
def startName : String := "_start"

/-- How the invisible point is drawn. -/
def startStyle (style : Dot.NodeStyle) : Dot.NodeStyle :=
  { style with style := some "invis", shape := some "point", label := some "" }

/-- An automaton as a graph. -/
def graph (a : Automaton) : Dot.Graph :=
  let g := Dot.Graph.empty.setRankDir "LR"
  let g := a.states.foldl (fun g q => g.node q.name (a.nodeStyle q)) g
  let g := a.transitions.foldl
    (fun g e => g.edge e.1.name e.2.1.name { label := some e.2.2 }) g
  match a.initial with
  | some q => (g.node startName startStyle).edge startName q.name {}
  | none => g

end RegexAutomata.Automaton
