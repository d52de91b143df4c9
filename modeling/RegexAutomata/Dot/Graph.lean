/-
Directed graphs for drawing.

A graph has a direction in which it is laid out, named nodes and edges between
them, all with attributes.  Nodes are kept in the order in which they are first
mentioned, and so are the pairs of nodes that edges join; several edges may join
the same pair, one after another.  An edge brings its two nodes along.
-/
import RegexAutomata.InsertionOrder

namespace RegexAutomata.Dot

/-- How a node is drawn; what is not set is not written. -/
structure NodeStyle where
  /-- The text in the node. -/
  label : Option String := none
  /-- The number of borders. -/
  peripheries : Option String := none
  /-- The outline. -/
  shape : Option String := none
  /-- The manner of drawing. -/
  style : Option String := none
  deriving DecidableEq

/-- How an edge is drawn. -/
structure EdgeStyle where
  /-- The text beside the edge. -/
  label : Option String := none
  deriving DecidableEq

/-- A graph to be drawn. -/
structure Graph where
  /-- The direction of the layout. -/
  rankDir : Option String := none
  /-- The nodes in the order of their first mention. -/
  nodes : List (String × NodeStyle) := []
  /-- The pairs that edges join, in the order of their first mention, with
  their edges. -/
  edges : List ((String × String) × List EdgeStyle) := []
  deriving DecidableEq

namespace Graph

/-- The graph without nodes. -/
def empty : Graph := {}

/-- Lay the graph out in a direction. -/
def setRankDir (g : Graph) (value : String) : Graph := { g with rankDir := some value }

/-- Mention a node, and change how it is drawn. -/
def node (g : Graph) (name : String) (change : NodeStyle → NodeStyle) : Graph :=
  { g with nodes := InsertionOrder.alter name (fun old => change (old.getD {})) g.nodes }

/-- Mention a node. -/
def mention (g : Graph) (name : String) : Graph := g.node name id

/-- Add an edge between two nodes. -/
def edge (g : Graph) (source target : String) (style : EdgeStyle) : Graph :=
  let g := (g.mention source).mention target
  { g with
    edges := InsertionOrder.alter (source, target) (fun old => old.getD [] ++ [style]) g.edges }

end Graph

end RegexAutomata.Dot
