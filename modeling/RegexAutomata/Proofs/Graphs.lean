/-
How graphs come about.

A graph is made by a list of `Call`s.  What it holds is what the calls say (`Graph.shows_ofCalls`):
the direction that was set last, the names in the order of their first mention, for every name and
attribute the value that was set last, the pairs that edges join in the order of their first
mention, and for every pair all its edges, one after another.

No name and no pair is kept twice and no pair without an edge (`Graph.Ordered`), and a name or an
edge that is new comes at the end (`Graph.nodes_node`, `Graph.edge_eq`).
-/
import Mathlib.Data.List.Induction
import RegexAutomata.Dot.Graph

namespace RegexAutomata

namespace InsertionOrder

variable {κ ν : Type} [DecidableEq κ] {k key : κ} {change : Option ν → ν} {es ds : List (κ × ν)}

/-! ### Entries in the order of their keys -/

/-- The value of a key. -/
def find? (k : κ) (es : List (κ × ν)) : Option ν := (es.find? fun e => e.1 = k).map Prod.snd

theorem find?_cons (k : κ) (e : κ × ν) (es : List (κ × ν)) :
    find? k (e :: es) = if e.1 = k then some e.2 else find? k es := by
  rw [find?, List.find?_cons]
  by_cases h : e.1 = k <;> simp [h, find?]

theorem find?_alter (k : κ) :
    find? k (alter key change es) =
      if k = key then some (change (find? key es)) else find? k es := by
  induction es with
  | nil =>
    rw [alter, find?_cons]
    by_cases h : k = key
    · rw [if_pos h.symm, if_pos h]
      rfl
    · rw [if_neg (Ne.symm h), if_neg h]
  | cons e es ih =>
    by_cases he : e.1 = key
    · rw [alter, if_pos he, find?_cons, find?_cons, find?_cons]
      by_cases h : k = key
      · rw [if_pos h.symm, if_pos h, if_pos he]
      · rw [if_neg (Ne.symm h), if_neg h, if_neg (he ▸ Ne.symm h)]
    · rw [alter, if_neg he, find?_cons, ih, find?_cons, find?_cons, if_neg he]
      by_cases h : e.1 = k
      · rw [if_pos h, if_pos h, if_neg (h ▸ he)]
      · rw [if_neg h, if_neg h]

theorem alter_of_notMem (h : key ∉ es.map Prod.fst) :
    alter key change es = es ++ [(key, change none)] := by
  induction es with
  | nil => rfl
  | cons e es ih =>
    rw [List.map_cons, List.mem_cons, not_or] at h
    rw [alter, if_neg (Ne.symm h.1), ih h.2, List.cons_append]

/-- A change that leaves every value as it was changes nothing. -/
theorem alter_eq_self (h : key ∈ es.map Prod.fst) (hchange : ∀ v, change (some v) = v) :
    alter key change es = es := by
  induction es with
  | nil => cases h
  | cons e es ih =>
    by_cases he : e.1 = key
    · rw [alter, if_pos he, hchange, ← he]
    · rw [List.map_cons, List.mem_cons] at h
      rw [alter, if_neg he, ih (h.resolve_left (Ne.symm he))]

/-- Entries are known by their keys, in order, and what is found under each. -/
theorem eq_of_find? (hkeys : es.map Prod.fst = ds.map Prod.fst) (hnodup : (es.map Prod.fst).Nodup)
    (hfind : ∀ k ∈ es.map Prod.fst, find? k es = find? k ds) : es = ds := by
  induction es generalizing ds with
  | nil => exact (List.map_eq_nil_iff.1 hkeys.symm).symm
  | cons e es ih =>
    obtain ⟨d, ds, rfl⟩ := List.exists_cons_of_ne_nil
      (show ds ≠ [] from fun h => by rw [h] at hkeys; cases hkeys)
    rw [List.map_cons, List.map_cons, List.cons.injEq] at hkeys
    rw [List.map_cons, List.nodup_cons] at hnodup
    have hhead := hfind e.1 List.mem_cons_self
    rw [find?_cons, find?_cons, if_pos rfl, if_pos hkeys.1.symm, Option.some_inj] at hhead
    have htail : es = ds := ih hkeys.2 hnodup.2 fun k hk => by
      have hne : e.1 ≠ k := fun h => hnodup.1 (h ▸ hk)
      have := hfind k (List.mem_cons_of_mem _ hk)
      rwa [find?_cons, find?_cons, if_neg hne, if_neg (hkeys.1 ▸ hne)] at this
    rw [htail, Prod.ext hkeys.1 hhead]

/-- A key has a value just if it is there. -/
theorem isSome_find?_iff : (find? k es).isSome ↔ k ∈ es.map Prod.fst := by
  simp [find?, List.find?_isSome]

end InsertionOrder

namespace Dot

open InsertionOrder

/-! ### Calls -/

/-- An attribute of a node. -/
inductive NodeAttribute where
  /-- The text in the node. -/
  | label
  /-- The number of borders. -/
  | peripheries
  /-- The outline. -/
  | shape
  /-- The manner of drawing. -/
  | style
  deriving DecidableEq

namespace NodeStyle

/-- The value of an attribute. -/
def get (s : NodeStyle) : NodeAttribute → Option String
  | .label => s.label
  | .peripheries => s.peripheries
  | .shape => s.shape
  | .style => s.style

/-- Set an attribute. -/
def set (s : NodeStyle) (a : NodeAttribute) (value : String) : NodeStyle :=
  match a with
  | .label => { s with label := some value }
  | .peripheries => { s with peripheries := some value }
  | .shape => { s with shape := some value }
  | .style => { s with style := some value }

theorem get_set (s : NodeStyle) (a b : NodeAttribute) (value : String) :
    (s.set a value).get b = if b = a then some value else s.get b := by
  cases a <;> cases b <;> rfl

theorem eq_of_get {s s' : NodeStyle} (h : ∀ a, s.get a = s'.get a) : s = s' := by
  obtain ⟨l, p, sh, st⟩ := s
  obtain ⟨l', p', sh', st'⟩ := s'
  obtain rfl : l = l' := h .label
  obtain rfl : p = p' := h .peripheries
  obtain rfl : sh = sh' := h .shape
  obtain rfl : st = st' := h .style
  rfl

/-- Set several attributes, one after another. -/
def setAll (s : NodeStyle) (settings : List (NodeAttribute × String)) : NodeStyle :=
  settings.foldl (fun s x => s.set x.1 x.2) s

end NodeStyle

/-- Set the label of an edge several times, one after another. -/
def EdgeStyle.setAll (s : EdgeStyle) (labels : List String) : EdgeStyle :=
  labels.foldl (fun s label => { s with label := some label }) s

/-- What can be asked of a graph. -/
inductive Call where
  /-- Lay the graph out in a direction. -/
  | rankDir (value : String)
  /-- Mention a node, and set some of its attributes. -/
  | node (name : String) (settings : List (NodeAttribute × String))
  /-- Add an edge, and set its label, if at all. -/
  | edge (source target : String) (labels : List String)

namespace Graph

/-- The graph after a call. -/
def after (g : Graph) : Call → Graph
  | .rankDir value => g.setRankDir value
  | .node name settings => g.node name (·.setAll settings)
  | .edge source target labels => g.edge source target (({} : EdgeStyle).setAll labels)

/-- The graph that several calls make. -/
def ofCalls (cs : List Call) : Graph := cs.foldl after empty

@[simp] theorem ofCalls_append_singleton (cs : List Call) (c : Call) :
    ofCalls (cs ++ [c]) = (ofCalls cs).after c := by
  rw [ofCalls, List.foldl_append]
  rfl

end Graph

/-! ### What the calls say -/

/-- One more mention, in a list in the order of first mention. -/
def note {α : Type} [DecidableEq α] (xs : List α) (x : α) : List α :=
  if x ∈ xs then xs else xs ++ [x]

theorem eraseDups_append {α : Type} [BEq α] [LawfulBEq α] [DecidableEq α] (xs ys : List α) :
    (xs ++ ys).eraseDups = ys.foldl note xs.eraseDups := by
  induction ys generalizing xs with
  | nil => rw [List.append_nil, List.foldl_nil]
  | cons y ys ih =>
    have hone : (xs ++ [y]).eraseDups = note xs.eraseDups y := by
      rw [List.eraseDups_append, note]
      by_cases h : y ∈ xs <;> simp [h, List.removeAll, List.eraseDups_cons]
    rw [List.foldl_cons, ← hone, ← ih, List.append_assoc, List.singleton_append]

/-- The directions that a call sets. -/
def Call.rankDirs : Call → List String
  | .rankDir value => [value]
  | _ => []

/-- The nodes that a call mentions. -/
def Call.mentions : Call → List String
  | .rankDir _ => []
  | .node name _ => [name]
  | .edge source target _ => [source, target]

/-- The values that a call gives to an attribute of a node. -/
def Call.values (name : String) (a : NodeAttribute) : Call → List String
  | .node other settings =>
    if other = name then settings.filterMap fun x => if x.1 = a then some x.2 else none else []
  | _ => []

/-- The pairs between which a call adds an edge. -/
def Call.joins : Call → List (String × String)
  | .edge source target _ => [(source, target)]
  | _ => []

/-- The edges that a call adds between a pair, by their labels. -/
def Call.labels (pair : String × String) : Call → List (Option String)
  | .edge source target labels => if (source, target) = pair then [labels.getLast?] else []
  | _ => []

namespace Calls

/-- The direction that is set last. -/
def rankDir (cs : List Call) : Option String := (cs.flatMap Call.rankDirs).getLast?

/-- The nodes, in the order of their first mention. -/
def names (cs : List Call) : List String := (cs.flatMap Call.mentions).eraseDups

/-- The value that is given last to an attribute of a node. -/
def value (cs : List Call) (name : String) (a : NodeAttribute) : Option String :=
  (cs.flatMap (Call.values name a)).getLast?

/-- The pairs that edges join, in the order of their first mention. -/
def pairs (cs : List Call) : List (String × String) := (cs.flatMap Call.joins).eraseDups

/-- All the edges between a pair, by their labels, one after another. -/
def labels (cs : List Call) (pair : String × String) : List (Option String) :=
  cs.flatMap (Call.labels pair)

variable (cs : List Call) (c : Call)

theorem rankDir_append_singleton :
    rankDir (cs ++ [c]) = c.rankDirs.getLast?.or (rankDir cs) := by
  rw [rankDir, List.flatMap_append, List.flatMap_singleton, List.getLast?_append, rankDir]

theorem names_append_singleton : names (cs ++ [c]) = c.mentions.foldl note (names cs) := by
  rw [names, List.flatMap_append, List.flatMap_singleton, eraseDups_append, names]

theorem value_append_singleton (name : String) (a : NodeAttribute) :
    value (cs ++ [c]) name a = (c.values name a).getLast?.or (value cs name a) := by
  rw [value, List.flatMap_append, List.flatMap_singleton, List.getLast?_append, value]

theorem pairs_append_singleton : pairs (cs ++ [c]) = c.joins.foldl note (pairs cs) := by
  rw [pairs, List.flatMap_append, List.flatMap_singleton, eraseDups_append, pairs]

theorem labels_append_singleton (pair : String × String) :
    labels (cs ++ [c]) pair = labels cs pair ++ c.labels pair := by
  rw [labels, List.flatMap_append, List.flatMap_singleton, labels]

end Calls

namespace NodeStyle

theorem get_setAll (s : NodeStyle) (settings : List (NodeAttribute × String)) (a : NodeAttribute) :
    (s.setAll settings).get a =
      (settings.filterMap fun x => if x.1 = a then some x.2 else none).getLast?.or (s.get a) := by
  induction settings using List.reverseRecOn with
  | nil => rfl
  | append_singleton settings x ih =>
    have hfold : s.setAll (settings ++ [x]) = (s.setAll settings).set x.1 x.2 := by
      rw [setAll, List.foldl_append]
      rfl
    rw [hfold, get_set, ih, List.filterMap_append, List.getLast?_append]
    by_cases h : x.1 = a
    · simp [h]
    · simp [h, Ne.symm h]

end NodeStyle

theorem EdgeStyle.label_setAll (labels : List String) :
    (({} : EdgeStyle).setAll labels).label = labels.getLast? := by
  induction labels using List.reverseRecOn with
  | nil => rfl
  | append_singleton labels label _ =>
    rw [List.getLast?_concat, setAll, List.foldl_append]
    rfl

theorem EdgeStyle.eq_of_label {s s' : EdgeStyle} (h : s.label = s'.label) : s = s' := by
  obtain ⟨l⟩ := s
  obtain ⟨l'⟩ := s'
  obtain rfl : l = l' := h
  rfl

namespace Graph

variable {g h : Graph} {name source target : String} {change : NodeStyle → NodeStyle}
  {style : EdgeStyle}

/-! ### What a graph holds -/

/-- The names of the nodes, in the order of their first mention. -/
def names (g : Graph) : List String := g.nodes.map Prod.fst

/-- How a node is drawn. -/
def styleOf (g : Graph) (name : String) : NodeStyle := (find? name g.nodes).getD {}

/-- The pairs that edges join, in the order of their first mention. -/
def pairs (g : Graph) : List (String × String) := g.edges.map Prod.fst

/-- The edges between a pair of nodes. -/
def edgesBetween (g : Graph) (pair : String × String) : List EdgeStyle :=
  (find? pair g.edges).getD []

theorem names_node (g : Graph) (name : String) (change : NodeStyle → NodeStyle) :
    (g.node name change).names = note g.names name :=
  map_fst_alter _ _ _

theorem styleOf_node (g : Graph) (name other : String) (change : NodeStyle → NodeStyle) :
    (g.node name change).styleOf other =
      if other = name then change (g.styleOf name) else g.styleOf other := by
  rw [styleOf, node, find?_alter]
  split <;> rfl

theorem names_mention (g : Graph) (name : String) :
    (g.mention name).names = note g.names name :=
  names_node g name id

/-- A mention alone changes no attribute. -/
theorem styleOf_mention (g : Graph) (name other : String) :
    (g.mention name).styleOf other = g.styleOf other := by
  rw [mention, styleOf_node]
  split
  · rename_i h
    rw [h]
    rfl
  · rfl

theorem names_edge (g : Graph) (source target : String) (style : EdgeStyle) :
    (g.edge source target style).names = note (note g.names source) target := by
  show ((g.mention source).mention target).names = _
  rw [names_mention, names_mention]

theorem styleOf_edge (g : Graph) (source target other : String) (style : EdgeStyle) :
    (g.edge source target style).styleOf other = g.styleOf other := by
  show ((g.mention source).mention target).styleOf other = _
  rw [styleOf_mention, styleOf_mention]

theorem pairs_edge (g : Graph) (source target : String) (style : EdgeStyle) :
    (g.edge source target style).pairs = note g.pairs (source, target) :=
  map_fst_alter _ _ _

theorem edgesBetween_edge (g : Graph) (source target : String) (style : EdgeStyle)
    (pair : String × String) :
    (g.edge source target style).edgesBetween pair =
      if pair = (source, target) then g.edgesBetween (source, target) ++ [style]
      else g.edgesBetween pair := by
  rw [edgesBetween, edge, find?_alter]
  split <;> rfl

/-! ### Graphs in order -/

/-- No name and no pair is kept twice, and every pair has an edge. -/
structure Ordered (g : Graph) : Prop where
  nodup_names : g.names.Nodup
  nodup_pairs : g.pairs.Nodup
  edges_ne_nil : ∀ e ∈ g.edges, e.2 ≠ []

theorem ordered_empty : empty.Ordered := ⟨.nil, .nil, nofun⟩

theorem Ordered.setRankDir (h : g.Ordered) (value : String) : (g.setRankDir value).Ordered :=
  ⟨h.nodup_names, h.nodup_pairs, h.edges_ne_nil⟩

theorem Ordered.node (h : g.Ordered) (name : String) (change : NodeStyle → NodeStyle) :
    (g.node name change).Ordered :=
  ⟨nodup_map_fst_alter h.nodup_names, h.nodup_pairs, h.edges_ne_nil⟩

theorem Ordered.edge (h : g.Ordered) (source target : String) (style : EdgeStyle) :
    (g.edge source target style).Ordered where
  nodup_names := ((h.node source id).node target id).nodup_names
  nodup_pairs := nodup_map_fst_alter h.nodup_pairs
  edges_ne_nil e he := by
    rcases mem_alter he with ⟨old, rfl⟩ | he
    · exact List.append_ne_nil_of_right_ne_nil _ (List.cons_ne_nil _ _)
    · exact h.edges_ne_nil e he

theorem Ordered.after (h : g.Ordered) (c : Call) : (g.after c).Ordered := by
  cases c with
  | rankDir value => exact h.setRankDir value
  | node name settings => exact h.node name (·.setAll settings)
  | edge source target labels => exact h.edge source target _

theorem ordered_ofCalls (cs : List Call) : (ofCalls cs).Ordered := by
  induction cs using List.reverseRecOn with
  | nil => exact ordered_empty
  | append_singleton cs c ih =>
    rw [ofCalls_append_singleton]
    exact ih.after c

/-- A graph in order is known by what it holds. -/
theorem Ordered.eq_of_views (hg : g.Ordered) (hrank : g.rankDir = h.rankDir)
    (hnames : g.names = h.names) (hstyles : ∀ name, g.styleOf name = h.styleOf name)
    (hpairs : g.pairs = h.pairs)
    (hedges : ∀ pair, g.edgesBetween pair = h.edgesBetween pair) : g = h := by
  have mem_of_eq : ∀ {α : Type} {xs ys : List α} {x : α}, xs = ys → x ∈ xs → x ∈ ys :=
    fun heq hx => heq ▸ hx
  have hnodes : g.nodes = h.nodes := by
    refine eq_of_find? hnames hg.nodup_names fun name hname => ?_
    obtain ⟨s, hs⟩ := Option.isSome_iff_exists.1 (isSome_find?_iff.2 hname)
    obtain ⟨s', hs'⟩ := Option.isSome_iff_exists.1 (isSome_find?_iff.2 (mem_of_eq hnames hname))
    have := hstyles name
    rw [styleOf, styleOf, hs, hs'] at this
    rw [hs, hs']
    exact congrArg some this
  have hrest : g.edges = h.edges := by
    refine eq_of_find? hpairs hg.nodup_pairs fun pair hpair => ?_
    obtain ⟨s, hs⟩ := Option.isSome_iff_exists.1 (isSome_find?_iff.2 hpair)
    obtain ⟨s', hs'⟩ := Option.isSome_iff_exists.1 (isSome_find?_iff.2 (mem_of_eq hpairs hpair))
    have := hedges pair
    rw [edgesBetween, edgesBetween, hs, hs'] at this
    rw [hs, hs']
    exact congrArg some this
  obtain ⟨r, ns, es⟩ := g
  obtain ⟨r', ns', es'⟩ := h
  obtain rfl : r = r' := hrank
  obtain rfl : ns = ns' := hnodes
  obtain rfl : es = es' := hrest
  rfl

/-! ### A graph holds what the calls say -/

/-- The graph holds what the calls say. -/
structure Shows (g : Graph) (cs : List Call) : Prop where
  rankDir_eq : g.rankDir = Calls.rankDir cs
  names_eq : g.names = Calls.names cs
  get_eq : ∀ name a, (g.styleOf name).get a = Calls.value cs name a
  pairs_eq : g.pairs = Calls.pairs cs
  labels_eq : ∀ pair, (g.edgesBetween pair).map EdgeStyle.label = Calls.labels cs pair

theorem shows_empty : empty.Shows [] where
  rankDir_eq := rfl
  names_eq := rfl
  get_eq _ a := by cases a <;> rfl
  pairs_eq := rfl
  labels_eq _ := rfl

theorem Shows.setRankDir {cs : List Call} (h : g.Shows cs) (value : String) :
    (g.setRankDir value).Shows (cs ++ [.rankDir value]) where
  rankDir_eq := (Calls.rankDir_append_singleton cs (.rankDir value)).symm
  names_eq := h.names_eq.trans (Calls.names_append_singleton cs (.rankDir value)).symm
  get_eq name a :=
    (h.get_eq name a).trans (Calls.value_append_singleton cs (.rankDir value) name a).symm
  pairs_eq := h.pairs_eq.trans (Calls.pairs_append_singleton cs (.rankDir value)).symm
  labels_eq pair := by
    rw [Calls.labels_append_singleton, ← h.labels_eq]
    exact (List.append_nil _).symm

theorem Shows.node {cs : List Call} (h : g.Shows cs) (name : String)
    (settings : List (NodeAttribute × String)) :
    (g.node name (·.setAll settings)).Shows (cs ++ [.node name settings]) where
  rankDir_eq := h.rankDir_eq.trans (Calls.rankDir_append_singleton cs (.node name settings)).symm
  names_eq := by
    rw [names_node, h.names_eq, Calls.names_append_singleton]
    rfl
  get_eq other a := by
    rw [styleOf_node, Calls.value_append_singleton, ← h.get_eq, Call.values]
    by_cases hn : other = name
    · rw [if_pos hn, if_pos hn.symm, NodeStyle.get_setAll, hn]
    · rw [if_neg hn, if_neg (Ne.symm hn), List.getLast?_nil, Option.none_or]
  pairs_eq := h.pairs_eq.trans (Calls.pairs_append_singleton cs (.node name settings)).symm
  labels_eq pair := by
    rw [Calls.labels_append_singleton, ← h.labels_eq]
    exact (List.append_nil _).symm

theorem Shows.edge {cs : List Call} (h : g.Shows cs) (source target : String)
    (labels : List String) :
    (g.edge source target (({} : EdgeStyle).setAll labels)).Shows
      (cs ++ [.edge source target labels]) where
  rankDir_eq :=
    h.rankDir_eq.trans (Calls.rankDir_append_singleton cs (.edge source target labels)).symm
  names_eq := by
    rw [names_edge, h.names_eq, Calls.names_append_singleton]
    rfl
  get_eq other a := by
    rw [styleOf_edge, Calls.value_append_singleton, ← h.get_eq]
    rfl
  pairs_eq := by
    rw [pairs_edge, h.pairs_eq, Calls.pairs_append_singleton]
    rfl
  labels_eq pair := by
    rw [edgesBetween_edge, Calls.labels_append_singleton, ← h.labels_eq, Call.labels]
    by_cases hp : pair = (source, target)
    · rw [if_pos hp, if_pos hp.symm, List.map_append, List.map_singleton,
        EdgeStyle.label_setAll, hp]
    · rw [if_neg hp, if_neg (Ne.symm hp), List.append_nil]

theorem Shows.after {cs : List Call} (h : g.Shows cs) (c : Call) :
    (g.after c).Shows (cs ++ [c]) := by
  cases c with
  | rankDir value => exact h.setRankDir value
  | node name settings => exact h.node name settings
  | edge source target labels => exact h.edge source target labels

/-- A graph holds what the calls that have made it say. -/
theorem shows_ofCalls (cs : List Call) : (ofCalls cs).Shows cs := by
  induction cs using List.reverseRecOn with
  | nil => exact shows_empty
  | append_singleton cs c ih =>
    rw [ofCalls_append_singleton]
    exact ih.after c

/-- Calls make the same graph just if they say the same. -/
theorem ofCalls_eq_iff {cs ds : List Call} :
    ofCalls cs = ofCalls ds ↔
      Calls.rankDir cs = Calls.rankDir ds ∧ Calls.names cs = Calls.names ds ∧
        (∀ name a, Calls.value cs name a = Calls.value ds name a) ∧
        Calls.pairs cs = Calls.pairs ds ∧
        ∀ pair, Calls.labels cs pair = Calls.labels ds pair := by
  have hc := shows_ofCalls cs
  have hd := shows_ofCalls ds
  constructor
  · intro heq
    rw [heq] at hc
    refine ⟨?_, ?_, fun name a => ?_, ?_, fun pair => ?_⟩
    · rw [← hc.rankDir_eq, hd.rankDir_eq]
    · rw [← hc.names_eq, hd.names_eq]
    · rw [← hc.get_eq, hd.get_eq]
    · rw [← hc.pairs_eq, hd.pairs_eq]
    · rw [← hc.labels_eq, hd.labels_eq]
  · rintro ⟨hrank, hnames, hvalues, hpairs, hlabels⟩
    refine (ordered_ofCalls cs).eq_of_views ?_ ?_ (fun name => ?_) ?_ fun pair => ?_
    · rw [hc.rankDir_eq, hd.rankDir_eq, hrank]
    · rw [hc.names_eq, hd.names_eq, hnames]
    · exact NodeStyle.eq_of_get fun a => by rw [hc.get_eq, hd.get_eq, hvalues]
    · rw [hc.pairs_eq, hd.pairs_eq, hpairs]
    · have hmap := (hc.labels_eq pair).trans ((hlabels pair).trans (hd.labels_eq pair).symm)
      exact (List.map_inj_right fun _ _ => EdgeStyle.eq_of_label).1 hmap

/-! ### What is new comes at the end -/

theorem node_of_notMem (h : name ∉ g.names) :
    g.node name change = { g with nodes := g.nodes ++ [(name, change {})] } := by
  rw [node, alter_of_notMem h]
  rfl

theorem mention_of_mem (h : name ∈ g.names) : g.mention name = g := by
  rw [mention, node, alter_eq_self h fun _ => rfl]

theorem edge_of_notMem (hs : source ∈ g.names) (ht : target ∈ g.names)
    (hnew : (source, target) ∉ g.pairs) :
    g.edge source target style =
      { g with edges := g.edges ++ [((source, target), [style])] } := by
  rw [edge, mention_of_mem hs, mention_of_mem ht, alter_of_notMem hnew]
  rfl

/-- New names, one after another. -/
theorem foldl_node {ι : Type} {name : ι → String} {change : ι → NodeStyle → NodeStyle}
    {xs : List ι} (hnew : ∀ x ∈ xs, name x ∉ g.names) (hnodup : (xs.map name).Nodup) :
    xs.foldl (fun g x => g.node (name x) (change x)) g =
      { g with nodes := g.nodes ++ xs.map fun x => (name x, change x {}) } := by
  induction xs generalizing g with
  | nil => rw [List.foldl_nil, List.map_nil, List.append_nil]
  | cons x xs ih =>
    rw [List.map_cons, List.nodup_cons] at hnodup
    rw [List.foldl_cons, node_of_notMem (hnew x List.mem_cons_self), ih _ hnodup.2]
    · rw [List.append_assoc, List.singleton_append, List.map_cons]
    · intro y hy hmem
      rw [names, List.map_append, List.mem_append] at hmem
      rcases hmem with hmem | hmem
      · exact hnew y (List.mem_cons_of_mem _ hy) hmem
      · exact hnodup.1 (List.mem_map.2 ⟨y, hy, List.mem_singleton.1 hmem⟩)

/-- New edges between nodes that are there, one after another. -/
theorem foldl_edge {ι : Type} {source target : ι → String} {style : ι → EdgeStyle} {xs : List ι}
    (hends : ∀ x ∈ xs, source x ∈ g.names ∧ target x ∈ g.names)
    (hnew : ∀ x ∈ xs, (source x, target x) ∉ g.pairs)
    (hnodup : (xs.map fun x => (source x, target x)).Nodup) :
    xs.foldl (fun g x => g.edge (source x) (target x) (style x)) g =
      { g with edges := g.edges ++ xs.map fun x => ((source x, target x), [style x]) } := by
  induction xs generalizing g with
  | nil => rw [List.foldl_nil, List.map_nil, List.append_nil]
  | cons x xs ih =>
    rw [List.map_cons, List.nodup_cons] at hnodup
    obtain ⟨hs, ht⟩ := hends x List.mem_cons_self
    rw [List.foldl_cons, edge_of_notMem hs ht (hnew x List.mem_cons_self), ih _ _ hnodup.2]
    · rw [List.append_assoc, List.singleton_append, List.map_cons]
    · exact fun y hy => hends y (List.mem_cons_of_mem _ hy)
    · intro y hy hmem
      rw [pairs, List.map_append, List.mem_append] at hmem
      rcases hmem with hmem | hmem
      · exact hnew y (List.mem_cons_of_mem _ hy) hmem
      · exact hnodup.1 (List.mem_map.2 ⟨y, hy, List.mem_singleton.1 hmem⟩)

end Graph

end Dot

end RegexAutomata
