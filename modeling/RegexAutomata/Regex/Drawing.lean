/-
An expression drawn as a tree.

Every node of the expression is a node of the graph, named by the number of
nodes that come before it in pre-order.  It shows its operand or the sign of
its operation; operands are drawn without an outline.  Edges lead from an
operation to its operands, the left one first.
-/
import RegexAutomata.Dot.Graph
import RegexAutomata.Regex.Printer
import RegexAutomata.Supply

namespace RegexAutomata.Regex

/-- How the root of an expression is drawn. -/
def nodeStyle (t : SymbolTable) (e : Regex) (style : Dot.NodeStyle) : Dot.NodeStyle :=
  { style with
    label := some (e.sign t).toString
    shape := if e.operand?.isSome then some "plaintext" else style.shape }

/-- Draw an expression into a graph, with names from a supply; the name of the
root comes first. -/
def drawInto (t : SymbolTable) (e : Regex) (supply : Supply Nat) (graph : Dot.Graph) :
    Nat × Supply Nat × Dot.Graph :=
  let (name, supply) := supply.fresh
  let graph := graph.node (toString name) (nodeStyle t e)
  match e with
  | .operand _ => (name, supply, graph)
  | .star e =>
    let (child, supply, graph) := e.drawInto t supply graph
    (name, supply, graph.edge (toString name) (toString child) {})
  | .concat l r =>
    let (child, supply, graph) := l.drawInto t supply graph
    let graph := graph.edge (toString name) (toString child) {}
    let (child, supply, graph) := r.drawInto t supply graph
    (name, supply, graph.edge (toString name) (toString child) {})
  | .union l r =>
    let (child, supply, graph) := l.drawInto t supply graph
    let graph := graph.edge (toString name) (toString child) {}
    let (child, supply, graph) := r.drawInto t supply graph
    (name, supply, graph.edge (toString name) (toString child) {})

/-- An expression as a graph. -/
def graph (t : SymbolTable) (e : Regex) : Dot.Graph := (e.drawInto t ⟨0⟩ .empty).2.2

end RegexAutomata.Regex
