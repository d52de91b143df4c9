/-
The drawing of an expression is its tree.

The nodes of the drawing are numbered from `0` on in pre-order, and its edges lead from every
node to the nodes below it (`graph_draws`).  An expression is drawn into a graph that holds
smaller numbers only (`Below`); what it adds are its own nodes and edges, numbered from the one
that is due (`draws`).

The signs of the nodes, one after another, are an unambiguous way of writing a well-formed
expression (`eq_of_signs_eq`), so that no other one has the same drawing.
-/
import Mathlib
import RegexAutomata.Proofs.Characters
import RegexAutomata.Proofs.Places
import RegexAutomata.Proofs.Statements
import RegexAutomata.Regex.Drawing

namespace RegexAutomata.Regex

open Dot

variable {t : SymbolTable} {e c l r : Regex} {g : Graph} {m n i j : Nat}

/-! ### Numbers -/

/-- How a node is drawn: with the print of its operand and without an outline, or with the sign of
its operation. -/
def drawn (t : SymbolTable) : Regex → NodeStyle
  | .operand o => { label := some o.print, shape := some "plaintext" }
  | .star _ => { label := some (t.symbol .star).toString }
  | .concat _ _ => { label := some (t.symbol .concat).toString }
  | .union _ _ => { label := some (t.symbol .union).toString }

theorem nodeStyle_eq (t : SymbolTable) (e : Regex) : e.nodeStyle t {} = e.drawn t := by
  cases e <;> rfl

/-- Nodes, numbered from `n` on. -/
def numbered (t : SymbolTable) (n : Nat) (es : List Regex) : List (String × NodeStyle) :=
  (es.zipIdx n).map fun d => (toString d.2, d.1.drawn t)

theorem numbered_append (n : Nat) (es ds : List Regex) :
    numbered t n (es ++ ds) = numbered t n es ++ numbered t (n + es.length) ds := by
  rw [numbered, List.zipIdx_append, List.map_append]
  rfl

theorem numbered_cons (n : Nat) (e : Regex) (es : List Regex) :
    numbered t n (e :: es) = numbered t n [e] ++ numbered t (n + 1) es := rfl

theorem map_fst_numbered (n : Nat) (es : List Regex) :
    (numbered t n es).map Prod.fst = (List.range' n es.length).map toString := by
  rw [numbered, List.map_map, ← List.zipIdx_map_snd n es, List.map_map]
  rfl

theorem map_snd_numbered (n : Nat) (es : List Regex) :
    (numbered t n es).map Prod.snd = es.map (drawn t) := by
  rw [numbered, List.map_map]
  nth_rewrite 2 [← List.zipIdx_map_fst n es]
  rw [List.map_map]
  rfl

theorem getElem?_numbered (n k : Nat) (es : List Regex) :
    (numbered t n es)[k]? = es[k]?.map fun d => (toString (n + k), d.drawn t) := by
  rw [numbered, List.getElem?_map, List.getElem?_zipIdx, Option.map_map]
  rfl

/-- The edges of an expression whose root has the number `n`. -/
def arrows : Nat → Regex → List (Nat × Nat)
  | _, .operand _ => []
  | n, .star e => arrows (n + 1) e ++ [(n, n + 1)]
  | n, .concat l r =>
    (arrows (n + 1) l ++ [(n, n + 1)]) ++ (arrows (n + 1 + l.size) r ++ [(n, n + 1 + l.size)])
  | n, .union l r =>
    (arrows (n + 1) l ++ [(n, n + 1)]) ++ (arrows (n + 1 + l.size) r ++ [(n, n + 1 + l.size)])

/-- An edge is drawn without a label. -/
def arrow (x : Nat × Nat) : (String × String) × List EdgeStyle :=
  ((toString x.1, toString x.2), [{}])

theorem size_pos (e : Regex) : 0 < e.size := by
  cases e <;> exact Nat.succ_pos _

/-- An edge leads from a number to a greater one. -/
theorem bounds_of_mem_arrows {x : Nat × Nat} (h : x ∈ arrows n e) :
    n ≤ x.1 ∧ n < x.2 ∧ x.2 < n + e.size := by
  induction e generalizing n with
  | operand o => cases h
  | star e ih =>
    have := size_pos e
    rw [size]
    rcases List.mem_append.1 h with h | h
    · have := ih h
      omega
    · rw [List.mem_singleton.1 h]
      simp only
      omega
  | concat l r ihl ihr | union l r ihl ihr =>
    have := size_pos l
    have := size_pos r
    rw [size]
    rcases List.mem_append.1 h with h | h
    · rcases List.mem_append.1 h with h | h
      · have := ihl h
        omega
      · rw [List.mem_singleton.1 h]
        simp only
        omega
    · rcases List.mem_append.1 h with h | h
      · have := ihr h
        omega
      · rw [List.mem_singleton.1 h]
        simp only
        omega

/-- There is an edge to every node but the root. -/
theorem length_arrows (n : Nat) (e : Regex) : (arrows n e).length + 1 = e.size := by
  induction e generalizing n with
  | operand o => rfl
  | star e ih =>
    rw [arrows, List.length_append, List.length_singleton, ih, size]
  | concat l r ihl ihr | union l r ihl ihr =>
    rw [arrows, List.length_append, List.length_append, List.length_append, List.length_singleton,
      List.length_singleton, ihl, ihr, size]

/-- The edges lead to the nodes below. -/
theorem mem_arrows_iff {x : Nat × Nat} :
    x ∈ arrows n e ↔ ∃ side i j, x = (n + i, n + j) ∧ e.IsChild side i j := by
  -- the edges of two expressions and of their common root
  have hbinary : ∀ {l r : Regex},
      (∀ {n x}, x ∈ arrows n l ↔ ∃ side i j, x = (n + i, n + j) ∧ l.IsChild side i j) →
      (∀ {n x}, x ∈ arrows n r ↔ ∃ side i j, x = (n + i, n + j) ∧ r.IsChild side i j) →
      ∀ {n x}, x ∈ (arrows (n + 1) l ++ [(n, n + 1)]) ++
          (arrows (n + 1 + l.size) r ++ [(n, n + 1 + l.size)]) ↔
        ∃ side i j, x = (n + i, n + j) ∧ StepIn (join l.places r.places) side i j := by
    intro l r ihl ihr n x
    simp only [List.mem_append, List.mem_singleton, ihl, ihr, stepIn_join_places]
    constructor
    · rintro ((⟨side, i, j, rfl, h⟩ | rfl) | (⟨side, i, j, rfl, h⟩ | rfl))
      · exact ⟨side, i + 1, j + 1, Prod.ext (by omega) (by omega),
          Or.inr (Or.inr (Or.inl ⟨i, j, rfl, rfl, h⟩))⟩
      · exact ⟨.left, 0, 1, rfl, Or.inl ⟨rfl, rfl, rfl⟩⟩
      · exact ⟨side, i + (l.size + 1), j + (l.size + 1), Prod.ext (by omega) (by omega),
          Or.inr (Or.inr (Or.inr ⟨i, j, rfl, rfl, h⟩))⟩
      · exact ⟨.right, 0, l.size + 1, Prod.ext rfl (by omega), Or.inr (Or.inl ⟨rfl, rfl, rfl⟩)⟩
    · rintro ⟨side, i, j, rfl, (⟨rfl, rfl, -⟩ | ⟨rfl, rfl, -⟩ | ⟨i, j, rfl, rfl, h⟩ |
        ⟨i, j, rfl, rfl, h⟩)⟩
      · exact Or.inl (Or.inr rfl)
      · exact Or.inr (Or.inr (Prod.ext rfl (by omega)))
      · exact Or.inl (Or.inl ⟨side, i, j, Prod.ext (by omega) (by omega), h⟩)
      · exact Or.inr (Or.inl ⟨side, i, j, Prod.ext (by omega) (by omega), h⟩)
  induction e generalizing n x with
  | operand o =>
    refine ⟨fun h => absurd h List.not_mem_nil, ?_⟩
    rintro ⟨side, i, j, -, h⟩
    exact absurd h (not_isChild_operand o)
  | star e ih =>
    simp only [arrows, List.mem_append, List.mem_singleton, ih, isChild_star]
    constructor
    · rintro (⟨side, i, j, rfl, h⟩ | rfl)
      · exact ⟨side, i + 1, j + 1, Prod.ext (by omega) (by omega), Or.inr ⟨i, j, rfl, rfl, h⟩⟩
      · exact ⟨.left, 0, 1, rfl, Or.inl ⟨rfl, rfl, rfl⟩⟩
    · rintro ⟨side, i, j, rfl, (⟨rfl, rfl, -⟩ | ⟨i, j, rfl, rfl, h⟩)⟩
      · exact Or.inr rfl
      · exact Or.inl ⟨side, i, j, Prod.ext (by omega) (by omega), h⟩
  | concat l r ihl ihr => exact hbinary ihl ihr
  | union l r ihl ihr => exact hbinary ihl ihr

/-! ### Drawing into a graph -/

/-- All nodes of the graph are numbers below `n`, and so are the nodes to which its edges lead. -/
structure Below (n : Nat) (g : Graph) : Prop where
  names_lt : ∀ name ∈ g.names, ∃ k < n, name = toString k
  targets_lt : ∀ pair ∈ g.pairs, ∃ k < n, pair.2 = toString k

/-- The graph with more nodes and edges. -/
def extend (g : Graph) (nodes : List (String × NodeStyle)) (as : List (Nat × Nat)) : Graph :=
  { g with nodes := g.nodes ++ nodes, edges := g.edges ++ as.map arrow }

theorem extend_extend (g : Graph) (ns ns' : List (String × NodeStyle)) (as as' : List (Nat × Nat)) :
    extend (extend g ns as) ns' as' = extend g (ns ++ ns') (as ++ as') := by
  simp only [extend, List.append_assoc, List.map_append]

theorem toString_inj {m n : Nat} (h : toString m = toString n) : m = n := Nat.repr_inj.1 h

theorem Below.notMem_names (h : Below n g) (hn : n ≤ m) : toString m ∉ g.names := fun hmem => by
  obtain ⟨k, hk, heq⟩ := h.names_lt _ hmem
  have := toString_inj heq
  omega

theorem Below.notMem_pairs (h : Below n g) (hn : n ≤ m) (source : String) :
    (source, toString m) ∉ g.pairs := fun hmem => by
  obtain ⟨k, hk, heq⟩ := h.targets_lt _ hmem
  have := toString_inj heq
  omega

theorem below_empty : Below 0 Graph.empty := ⟨nofun, nofun⟩

/-- The numbers go on where they have ended. -/
theorem Below.extend (h : Below n g) (es : List Regex) (as : List (Nat × Nat))
    (has : ∀ x ∈ as, x.2 < n + es.length) :
    Below (n + es.length) (extend g (numbered t n es) as) := by
  constructor
  · intro name hname
    rw [Graph.names, Regex.extend, List.map_append, map_fst_numbered] at hname
    rcases List.mem_append.1 hname with hname | hname
    · obtain ⟨k, hk, rfl⟩ := h.names_lt name hname
      exact ⟨k, by omega, rfl⟩
    · obtain ⟨k, hk, rfl⟩ := List.mem_map.1 hname
      exact ⟨k, (List.mem_range'_1.1 hk).2, rfl⟩
  · intro pair hpair
    rw [Graph.pairs, Regex.extend, List.map_append, List.map_map] at hpair
    rcases List.mem_append.1 hpair with hpair | hpair
    · obtain ⟨k, hk, heq⟩ := h.targets_lt pair hpair
      exact ⟨k, by omega, heq⟩
    · obtain ⟨x, hx, rfl⟩ := List.mem_map.1 hpair
      exact ⟨x.2, has x hx, rfl⟩

/-- The root is a new node. -/
theorem Below.node (h : Below n g) (e : Regex) :
    g.node (toString n) (e.nodeStyle t) = Regex.extend g (numbered t n [e]) [] := by
  rw [Graph.node_of_notMem (h.notMem_names (Nat.le_refl n)), nodeStyle_eq, Regex.extend,
    List.map_nil, List.append_nil]
  rfl

theorem mem_names_extend {ns : List (String × NodeStyle)} {as : List (Nat × Nat)} {name : String} :
    name ∈ (extend g ns as).names ↔ name ∈ g.names ∨ name ∈ ns.map Prod.fst := by
  rw [Graph.names, extend, List.map_append, List.mem_append, Graph.names]

/-- The first of some numbered nodes is there. -/
theorem toString_mem_numbered {es : List Regex} (h : 0 < es.length) :
    toString n ∈ (numbered t n es).map Prod.fst := by
  rw [map_fst_numbered]
  exact List.mem_map_of_mem (List.mem_range'_1.2 ⟨Nat.le_refl n, Nat.lt_add_of_pos_right h⟩)

/-- What is drawn for an expression whose root is the next number: its nodes in pre-order, and
its edges. -/
def Draws (t : SymbolTable) (e : Regex) : Prop :=
  ∀ {n : Nat} {g : Graph}, Below n g →
    e.drawInto t ⟨n⟩ g = (n, ⟨n + e.size⟩, extend g (numbered t n e.preOrder) (arrows n e))

/-- Draw an expression and the edge to its root. -/
def drawBelow (t : SymbolTable) (n : Nat) (e : Regex) (supply : Supply Nat) (graph : Graph) :
    Supply Nat × Graph :=
  let (child, supply, graph) := e.drawInto t supply graph
  (supply, graph.edge (toString n) (toString child) {})

theorem Draws.drawBelow (he : Draws t e) (h : Below m g) (hn : toString n ∈ g.names)
    (hlt : n < m) :
    drawBelow t n e ⟨m⟩ g =
      (⟨m + e.size⟩, extend g (numbered t m e.preOrder) (arrows m e ++ [(n, m)])) := by
  have hroot : toString m ∈ (Regex.extend g (numbered t m e.preOrder) (arrows m e)).names :=
    mem_names_extend.2 (Or.inr (toString_mem_numbered (by rw [length_preOrder]; exact size_pos e)))
  have hnew : (toString n, toString m) ∉
      (Regex.extend g (numbered t m e.preOrder) (arrows m e)).pairs := by
    rw [Graph.pairs, Regex.extend, List.map_append, List.map_map]
    intro hpair
    rcases List.mem_append.1 hpair with hpair | hpair
    · exact h.notMem_pairs (Nat.le_refl m) _ hpair
    · -- no edge of the expression comes from a number below its own
      obtain ⟨x, hx, heq⟩ := List.mem_map.1 hpair
      have hsource := toString_inj (Prod.mk.inj heq).1
      have := bounds_of_mem_arrows hx
      omega
  rw [Regex.drawBelow, he h]
  show (_, (Regex.extend g _ _).edge (toString n) (toString m) {}) = _
  rw [Graph.edge_of_notMem (mem_names_extend.2 (Or.inl hn)) hroot hnew]
  simp only [Regex.extend, List.map_append, List.append_assoc, List.map_singleton]
  rfl

/-- The root of an expression, on its own. -/
theorem Below.root (h : Below n g) (e : Regex) :
    Below (n + 1) (Regex.extend g (numbered t n [e]) []) ∧
      toString n ∈ (Regex.extend g (numbered t n [e]) []).names :=
  ⟨h.extend [e] [] nofun, mem_names_extend.2 (Or.inr (toString_mem_numbered Nat.one_pos))⟩

/-- A root and two expressions below it, one after the other. -/
theorem Draws.drawBelow_both (hl : Draws t l) (hr : Draws t r) (h : Below n g) (e : Regex) :
    Regex.drawBelow t n r (Regex.drawBelow t n l ⟨n + 1⟩ (g.node (toString n) (nodeStyle t e))).1
        (Regex.drawBelow t n l ⟨n + 1⟩ (g.node (toString n) (nodeStyle t e))).2 =
      (⟨n + (l.size + r.size + 1)⟩,
        extend g (numbered t n (e :: (l.preOrder ++ r.preOrder)))
          ((arrows (n + 1) l ++ [(n, n + 1)]) ++
            (arrows (n + 1 + l.size) r ++ [(n, n + 1 + l.size)]))) := by
  obtain ⟨hbelow, hroot⟩ := h.root (t := t) e
  rw [h.node, hl.drawBelow hbelow hroot (Nat.lt_succ_self n)]
  have hbetween : Below (n + 1 + l.size) (extend (extend g (numbered t n [e]) [])
      (numbered t (n + 1) l.preOrder) (arrows (n + 1) l ++ [(n, n + 1)])) := by
    have hextend := hbelow.extend (t := t) l.preOrder (arrows (n + 1) l ++ [(n, n + 1)]) ?_
    · rwa [length_preOrder] at hextend
    · intro x hx
      have := size_pos l
      rw [length_preOrder]
      rcases List.mem_append.1 hx with hx | hx
      · exact (bounds_of_mem_arrows hx).2.2
      · rw [List.mem_singleton.1 hx]
        simp only
        omega
  rw [hr.drawBelow hbetween (mem_names_extend.2 (Or.inl hroot)) (by omega), extend_extend,
    extend_extend, numbered_cons n e (l.preOrder ++ r.preOrder), numbered_append, length_preOrder,
    show n + 1 + l.size + r.size = n + (l.size + r.size + 1) by omega]
  rfl

theorem draws (t : SymbolTable) (e : Regex) : Draws t e := by
  induction e with
  | operand o =>
    intro n g h
    show (n, (⟨n + 1⟩ : Supply Nat), g.node (toString n) (nodeStyle t (operand o))) = _
    rw [h.node, preOrder_operand]
    rfl
  | star e ih =>
    intro n g h
    obtain ⟨hbelow, hroot⟩ := h.root (t := t) (star e)
    show (n, Regex.drawBelow t n e ⟨n + 1⟩ (g.node (toString n) (nodeStyle t (star e)))) = _
    rw [h.node, ih.drawBelow hbelow hroot (Nat.lt_succ_self n), extend_extend, preOrder_star,
      numbered_cons, size, Nat.add_assoc, Nat.add_comm 1]
    rfl
  | concat l r ihl ihr =>
    intro n g h
    rw [preOrder_concat]
    exact congrArg (Prod.mk n) (ihl.drawBelow_both ihr h (concat l r))
  | union l r ihl ihr =>
    intro n g h
    rw [preOrder_union]
    exact congrArg (Prod.mk n) (ihl.drawBelow_both ihr h (union l r))

/-- The nodes are those of the expression in pre-order, and the edges lead to the nodes below. -/
theorem graph_eq (t : SymbolTable) (e : Regex) :
    e.graph t = extend .empty (numbered t 0 e.preOrder) (arrows 0 e) := by
  rw [graph, draws t e below_empty]

theorem ordered_drawInto (t : SymbolTable) (e : Regex) {supply : Supply Nat} (h : g.Ordered) :
    (e.drawInto t supply g).2.2.Ordered := by
  induction e generalizing supply g with
  | operand o => exact h.node _ _
  | star e ih => exact (ih (h.node _ _)).edge _ _ _
  | concat l r ihl ihr | union l r ihl ihr =>
    exact (ihr ((ihl (h.node _ _)).edge _ _ _)).edge _ _ _

/-! ### Reading the nodes -/

/-- The sign of an expression tells the operation at its root, or that there is none. -/
theorem operator?_sign (he : e.WellFormed) : t.operator? (e.sign t) = e.operator? := by
  cases e with
  | operand o => exact t.operator?_of_ofChar? (Operand.ofChar?_toChar he)
  | star e => exact t.operator?_symbol .star
  | concat l r => exact t.operator?_symbol .concat
  | union l r => exact t.operator?_symbol .union

/-- The first sign is that of the root. -/
theorem root_of_map_sign {r s : List Char} (he : e.WellFormed) (hc : c.WellFormed)
    (h : e.preOrder.map (sign t) ++ r = c.preOrder.map (sign t) ++ s) :
    e.sign t = c.sign t ∧ e.operator? = c.operator? := by
  rw [preOrder_eq e, preOrder_eq c] at h
  have hsign : e.sign t = c.sign t := (List.cons.inj h).1
  exact ⟨hsign, by rw [← operator?_sign (t := t) he, hsign, operator?_sign hc]⟩

/-- The signs of the nodes in pre-order tell the expression and where it ends. -/
theorem unambiguousOn_sign (t : SymbolTable) :
    UnambiguousOn {e : Regex | e.WellFormed} fun e => e.preOrder.map (sign t) := by
  intro e he d hd r s h
  replace h : e.preOrder.map (sign t) ++ r = d.preOrder.map (sign t) ++ s := h
  induction e generalizing d r s with
  | operand o =>
    obtain ⟨hsign, hroot⟩ := root_of_map_sign he hd h
    cases d with
    | operand o' =>
      rw [preOrder_operand, preOrder_operand] at h
      have hoperand := congrArg Operand.ofChar? hsign
      simp only [sign] at hoperand
      rw [Operand.ofChar?_toChar he, Operand.ofChar?_toChar hd] at hoperand
      exact ⟨congrArg operand (Option.some.inj hoperand), (List.cons.inj h).2⟩
    | _ => cases hroot
  | star e ih =>
    obtain ⟨-, hroot⟩ := root_of_map_sign he hd h
    cases d with
    | star d =>
      rw [preOrder_star, preOrder_star] at h
      obtain ⟨rfl, hrest⟩ := ih he d hd r s (List.cons.inj h).2
      exact ⟨rfl, hrest⟩
    | _ => cases hroot
  | concat l m ihl ihm =>
    obtain ⟨-, hroot⟩ := root_of_map_sign he hd h
    cases d with
    | concat l' m' =>
      simp only [preOrder_concat, List.map_cons, List.map_append, List.cons_append,
        List.append_assoc] at h
      obtain ⟨rfl, hright⟩ := ihl he.1 l' hd.1 _ _ (List.cons.inj h).2
      obtain ⟨rfl, hrest⟩ := ihm he.2 m' hd.2 r s hright
      exact ⟨rfl, hrest⟩
    | _ => cases hroot
  | union l m ihl ihm =>
    obtain ⟨-, hroot⟩ := root_of_map_sign he hd h
    cases d with
    | union l' m' =>
      simp only [preOrder_union, List.map_cons, List.map_append, List.cons_append,
        List.append_assoc] at h
      obtain ⟨rfl, hright⟩ := ihl he.1 l' hd.1 _ _ (List.cons.inj h).2
      obtain ⟨rfl, hrest⟩ := ihm he.2 m' hd.2 r s hright
      exact ⟨rfl, hrest⟩
    | _ => cases hroot

theorem eq_of_signs_eq (he : e.WellFormed) (hc : c.WellFormed) (h : e.signs t = c.signs t) :
    e = c :=
  (unambiguousOn_sign t e he c hc [] [] (congrArg (· ++ []) (String.ofList_inj.1 h))).1

/-- The signs stand in the nodes. -/
theorem label_drawn (t : SymbolTable) (e : Regex) :
    (e.drawn t).label = some (e.sign t).toString := by
  cases e <;> rfl

theorem nodes_graph (t : SymbolTable) (e : Regex) :
    (e.graph t).nodes = numbered t 0 e.preOrder := by
  rw [graph_eq]
  exact List.nil_append _

/-- The nodes have the names that a supply hands out, and no two have the same. -/
theorem names_graph (t : SymbolTable) (e : Regex) :
    (e.graph t).names = ((⟨0⟩ : Supply Nat).take e.size).map toString ∧
      (e.graph t).names.Nodup := by
  have hnames : (e.graph t).names = ((⟨0⟩ : Supply Nat).take e.size).map toString := by
    rw [Graph.names, nodes_graph, map_fst_numbered, length_preOrder, Supply.take_eq_range']
  have hascend : ((⟨0⟩ : Supply Nat).take e.size).Pairwise (· < ·) :=
    Supply.pairwise_take fun _ _ => rfl
  refine ⟨hnames, hnames ▸ ?_⟩
  exact (hascend.imp Nat.ne_of_lt).map toString fun m n hne heq => hne (toString_inj heq)

theorem edges_graph (t : SymbolTable) (e : Regex) : (e.graph t).edges = (arrows 0 e).map arrow := by
  rw [graph_eq]
  exact List.nil_append _

/-- A well-formed expression is known by its drawing. -/
theorem graph_inj (he : e.WellFormed) (hc : c.WellFormed) (h : e.graph t = c.graph t) : e = c := by
  have hdrawn : e.preOrder.map (drawn t) = c.preOrder.map (drawn t) := by
    rw [← map_snd_numbered 0, ← map_snd_numbered 0, ← nodes_graph, ← nodes_graph, h]
  have hsigns : e.preOrder.map (sign t) = c.preOrder.map (sign t) := by
    have hlabels := congrArg (List.map NodeStyle.label) hdrawn
    rw [List.map_map, List.map_map] at hlabels
    have hstrings : ∀ d : Regex, d.preOrder.map (NodeStyle.label ∘ drawn t) =
        (d.preOrder.map (sign t)).map fun sign => some sign.toString := by
      intro d
      rw [List.map_map]
      exact List.map_congr_left fun d _ => label_drawn t d
    rw [hstrings, hstrings] at hlabels
    refine (List.map_inj_right fun x y hxy => ?_).1 hlabels
    exact List.singleton_inj.1 (String.ofList_inj.1 (Option.some.inj hxy))
  exact eq_of_signs_eq he hc (congrArg String.ofList hsigns)

/-! ### The tree -/

/-- The graph is the tree of the expression: its nodes are numbered and drawn as those of the
expression in pre-order, and one edge without a label leads to each node from the one above. -/
structure IsTree (t : SymbolTable) (e : Regex) (g : Graph) : Prop where
  rankDir_eq : g.rankDir = none
  length_nodes : g.nodes.length = e.size
  nodes_getElem? (k : Nat) :
    g.nodes[k]? = e.preOrder[k]?.map fun d => (toString k, d.drawn t)
  length_edges : g.edges.length + 1 = e.size
  nodup_pairs : g.pairs.Nodup
  edges_eq_singleton : ∀ x ∈ g.edges, x.2 = [{}]
  mem_pairs_iff (source target : String) :
    (source, target) ∈ g.pairs ↔
      ∃ side i j, source = toString i ∧ target = toString j ∧ e.IsChild side i j

theorem isTree_graph (t : SymbolTable) (e : Regex) : e.IsTree t (e.graph t) where
  rankDir_eq := by rw [graph_eq]; rfl
  length_nodes := by
    rw [nodes_graph, numbered, List.length_map, List.length_zipIdx, length_preOrder]
  nodes_getElem? k := by rw [nodes_graph, getElem?_numbered, Nat.zero_add]
  length_edges := by rw [edges_graph, List.length_map, length_arrows]
  nodup_pairs := (ordered_drawInto t e Graph.ordered_empty).nodup_pairs
  edges_eq_singleton x hx := by
    rw [edges_graph] at hx
    obtain ⟨y, -, rfl⟩ := List.mem_map.1 hx
    rfl
  mem_pairs_iff source target := by
    rw [Graph.pairs, edges_graph, List.map_map, List.mem_map]
    constructor
    · rintro ⟨x, hx, heq⟩
      obtain ⟨side, i, j, rfl, hchild⟩ := mem_arrows_iff.1 hx
      obtain ⟨rfl, rfl⟩ := Prod.mk.inj heq
      exact ⟨side, i, j, congrArg toString (Nat.zero_add i), congrArg toString (Nat.zero_add j),
        hchild⟩
    · rintro ⟨side, i, j, rfl, rfl, hchild⟩
      exact ⟨(0 + i, 0 + j), mem_arrows_iff.2 ⟨side, i, j, rfl, hchild⟩, by
        rw [Nat.zero_add, Nat.zero_add]; rfl⟩

/-- The drawing of an expression is its tree.  The nodes stand in pre-order, and the edges lead
to the nodes below, each of which is visited once, the left one before the right one; no other
well-formed expression has this drawing. -/
theorem graph_draws (t : SymbolTable) (e : Regex) :
    e.IsTree t (e.graph t) ∧
    (∀ side i j, e.IsChild side i j →
      ∃ d c, e.preOrder[i]? = some d ∧ e.preOrder[j]? = some c ∧ d.below? side = some c) ∧
    (∀ side i d c, e.preOrder[i]? = some d → d.below? side = some c →
      ∃! j, e.IsChild side i j ∧ e.preOrder[j]? = some c) ∧
    (∀ i j k, e.IsChild .left i j → e.IsChild .right i k → i < j ∧ j < k) ∧
    (e.WellFormed → ∀ c : Regex, c.WellFormed → (e.graph t = c.graph t ↔ e = c)) :=
  ⟨isTree_graph t e, fun _ _ _ => IsChild.below?_eq, fun _ _ _ _ => existsUnique_isChild,
    fun _ _ _ => IsChild.left_lt_right, fun he _ hc => ⟨graph_inj he hc, fun h => h ▸ rfl⟩⟩

example : (star (operand (.char 'a'))).graph .standard =
    { nodes := [("0", { label := some "*" }),
        ("1", { label := some "a", shape := some "plaintext" })]
      edges := [(("0", "1"), [{}])] } := by
  decide

end RegexAutomata.Regex
