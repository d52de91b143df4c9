/-
Graphs in the DOT language.

A graph is one line: the attributes of the graph, its nodes, its edges, each
followed by a semicolon.  Every name and every value stands between quotation
marks.  The attributes of a node or an edge follow it in square brackets, in
the order of their names; without attributes there are no brackets.
-/
import RegexAutomata.Dot.Graph
import RegexAutomata.Text.Quoted

namespace RegexAutomata.Dot

/-- A text between quotation marks. -/
def writeText (s : String) : List Char := Text.quoteWith '"' s.toList

/-- An attribute and its value. -/
def writeAttribute (key value : String) : List Char := key.toList ++ '=' :: writeText value

/-- The attributes that are set, in brackets. -/
def writeAttributes : List (String × String) → List Char
  | [] => []
  | (key, value) :: rest =>
    '[' :: writeAttribute key value ++
      rest.flatMap (fun a => ',' :: writeAttribute a.1 a.2) ++ [']']

/-- An attribute if it is set. -/
def ifSet (key : String) (value : Option String) : List (String × String) :=
  value.toList.map (key, ·)

/-- The attributes of a node in the order of their names. -/
def NodeStyle.attributes (s : NodeStyle) : List (String × String) :=
  ifSet "label" s.label ++ ifSet "peripheries" s.peripheries ++ ifSet "shape" s.shape ++
    ifSet "style" s.style

/-- The attributes of an edge. -/
def EdgeStyle.attributes (s : EdgeStyle) : List (String × String) := ifSet "label" s.label

/-- A node and how it is drawn. -/
def writeNode (node : String × NodeStyle) : List Char :=
  writeText node.1 ++ writeAttributes node.2.attributes ++ [';']

/-- An edge and how it is drawn. -/
def writeEdge (source target : String) (style : EdgeStyle) : List Char :=
  writeText source ++ '-' :: '>' :: writeText target ++
    writeAttributes style.attributes ++ [';']

/-- The edges between a pair of nodes. -/
def writeEdges (edges : (String × String) × List EdgeStyle) : List Char :=
  edges.2.flatMap (writeEdge edges.1.1 edges.1.2)

/-- The direction of the layout, if there is one. -/
def writeRankDir (value : Option String) : List Char :=
  value.toList.flatMap fun v => writeAttribute "rankdir" v ++ [';']

/-- The characters of a graph in the DOT language. -/
def Graph.write (g : Graph) : List Char :=
  "digraph \x7b".toList ++ writeRankDir g.rankDir ++ g.nodes.flatMap writeNode ++
    g.edges.flatMap writeEdges ++ ['\x7d']

/-- A graph in the DOT language. -/
def Graph.print (g : Graph) : String := String.ofList g.write

end RegexAutomata.Dot
