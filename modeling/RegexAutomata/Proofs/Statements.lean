/-
The text of a graph says what the graph holds.

A graph is written as a list of statements, one for every node and one for every edge, behind the
direction of the layout.  Statements are written unambiguously (`unambiguousOn_statement`), and so
is the whole list: graphs with the same text have the same direction and the same statements
(`Graph.statements_eq_of_print_eq`).

Edges are written pair by pair.  From the list of all edges the pairs can be told again, since no
pair comes twice and none without an edge (`ungroup_injective`); so graphs in order with the same
text are the same (`Graph.Ordered.print_inj`), and the calls that have made them say the same
(`Graph.print_ofCalls_eq_iff`).
-/
import Mathlib.Data.List.Basic
import RegexAutomata.Proofs.Graphs
import RegexAutomata.Proofs.Quoting

namespace RegexAutomata

namespace InsertionOrder

variable {κ ν : Type} {es ds : List (κ × List ν)}

/-! ### Groups, one after another -/

/-- Every member of every group, with the key of its group. -/
def ungroup (es : List (κ × List ν)) : List (κ × ν) := es.flatMap fun e => e.2.map (e.1, ·)

theorem ungroup_cons (e : κ × List ν) (es : List (κ × List ν)) :
    ungroup (e :: es) = e.2.map (e.1, ·) ++ ungroup es := rfl

theorem fst_mem_of_mem_ungroup {x : κ × ν} (h : x ∈ ungroup es) : x.1 ∈ es.map Prod.fst := by
  obtain ⟨e, he, hx⟩ := List.mem_flatMap.1 h
  obtain ⟨v, -, rfl⟩ := List.mem_map.1 hx
  exact List.mem_map_of_mem he

/-- The first group ends where another key comes. -/
theorem takeWhile_ungroup [DecidableEq κ] {k : κ} {vs : List ν} (h : k ∉ es.map Prod.fst) :
    (vs.map (k, ·) ++ ungroup es).takeWhile (fun x => x.1 = k) = vs.map (k, ·) := by
  have hall : ∀ x ∈ vs.map (k, ·), decide (x.1 = k) = true := by simp
  rw [List.takeWhile_append_of_pos hall]
  rcases hes : ungroup es with _ | ⟨x, xs⟩
  · simp
  · have hx : x ∈ ungroup es := hes ▸ List.mem_cons_self
    have hne : x.1 ≠ k := fun heq => h (heq ▸ fst_mem_of_mem_ungroup hx)
    simp [hne]

/-- The groups can be told from their members where no key comes twice and no group is
empty. -/
theorem ungroup_injective [DecidableEq κ] (hes : (es.map Prod.fst).Nodup)
    (hes' : ∀ e ∈ es, e.2 ≠ [])
    (hds : (ds.map Prod.fst).Nodup) (hds' : ∀ e ∈ ds, e.2 ≠ [])
    (h : ungroup es = ungroup ds) : es = ds := by
  have hnil : ∀ {e : κ × List ν} {es : List (κ × List ν)}, e.2 ≠ [] →
      ungroup (e :: es) ≠ [] := fun he hnil =>
    he (List.map_eq_nil_iff.1 (List.append_eq_nil_iff.1 hnil).1)
  induction es generalizing ds with
  | nil =>
    cases ds with
    | nil => rfl
    | cons d ds => exact absurd h.symm (hnil (hds' d List.mem_cons_self))
  | cons e es ih =>
    cases ds with
    | nil => exact absurd h (hnil (hes' e List.mem_cons_self))
    | cons d ds =>
      rw [List.map_cons, List.nodup_cons] at hes hds
      rw [ungroup_cons, ungroup_cons] at h
      -- the first member names the first group
      have hkey : e.1 = d.1 := by
        obtain ⟨v, vs, hv⟩ := List.exists_cons_of_ne_nil (hes' e List.mem_cons_self)
        obtain ⟨w, ws, hw⟩ := List.exists_cons_of_ne_nil (hds' d List.mem_cons_self)
        rw [hv, hw] at h
        exact (Prod.mk.inj (List.cons.inj h).1).1
      have hgroup := congrArg (List.takeWhile fun x => decide (x.1 = d.1)) h
      rw [← hkey, takeWhile_ungroup hes.1, hkey, takeWhile_ungroup hds.1] at hgroup
      have hvalues : e.2 = d.2 :=
        (List.map_inj_right fun _ _ heq => (Prod.mk.inj heq).2).1 hgroup
      rw [hkey, hvalues] at h
      rw [ih hes.2 (fun x hx => hes' x (List.mem_cons_of_mem _ hx)) hds.2
        (fun x hx => hds' x (List.mem_cons_of_mem _ hx)) (List.append_cancel_left h),
        Prod.ext hkey hvalues]

end InsertionOrder

namespace Dot

open InsertionOrder

/-! ### Attributes -/

theorem unambiguousOn_writeAttribute :
    UnambiguousOn {a : String × String | '=' ∉ a.1.toList} fun a => writeAttribute a.1 a.2 := by
  have hkey : UnambiguousOn {key : String | '=' ∉ key.toList} fun key => key.toList ++ ['='] :=
    (unambiguousOn_upTo '=').comp (fun _ h => h) fun _ _ _ _ => String.toList_inj.1
  intro a ha b hb r s heq
  simp only [writeAttribute, List.append_assoc, List.cons_append] at heq
  obtain ⟨hab, hrs⟩ := (hkey.append unambiguousOn_writeText) a ⟨ha, trivial⟩ b ⟨hb, trivial⟩ r s
    (by simpa using heq)
  exact ⟨hab, hrs⟩

/-- Attributes are written up to a semicolon, whether there are any or not. -/
theorem unambiguousOn_writeAttributes :
    UnambiguousOn {as : List (String × String) | ∀ a ∈ as, '=' ∉ a.1.toList}
      fun as => writeAttributes as ++ [';'] := by
  -- behind the first attribute every other one follows a comma, and a bracket the last
  have hrest : UnambiguousOn {as : List (String × String) | ∀ a ∈ as, '=' ∉ a.1.toList}
      fun as => as.flatMap (fun a => ',' :: writeAttribute a.1 a.2) ++ [']'] := by
    refine UnambiguousOn.flatMap (S := {a : String × String | '=' ∉ a.1.toList}) ?_ ']' ?_
    · intro a ha b hb r s heq
      exact unambiguousOn_writeAttribute a ha b hb r s (List.cons.inj heq).2
    · intro a _ r s heq
      exact absurd (List.cons.inj heq).1 (by decide)
  intro as has bs hbs r s heq
  cases as with
  | nil =>
    cases bs with
    | nil => exact ⟨rfl, (List.cons.inj heq).2⟩
    | cons b bs => exact absurd (List.cons.inj heq).1 (by decide)
  | cons a as =>
    cases bs with
    | nil => exact absurd (List.cons.inj heq).1 (by decide)
    | cons b bs =>
      have hcons := (unambiguousOn_writeAttribute.append hrest) (a, as)
        ⟨has a List.mem_cons_self, fun x hx => has x (List.mem_cons_of_mem _ hx)⟩ (b, bs)
        ⟨hbs b List.mem_cons_self, fun x hx => hbs x (List.mem_cons_of_mem _ hx)⟩
        (';' :: r) (';' :: s) (by simpa [writeAttributes] using heq)
      exact ⟨by rw [(Prod.mk.inj hcons.1).1, (Prod.mk.inj hcons.1).2],
        (List.cons.inj hcons.2).2⟩

/-- The attributes tell how a node is drawn. -/
theorem NodeStyle.attributes_injective : Function.Injective NodeStyle.attributes := by
  have hlookup : ∀ s : NodeStyle, s.attributes.lookup "label" = s.label ∧
      s.attributes.lookup "peripheries" = s.peripheries ∧
      s.attributes.lookup "shape" = s.shape ∧ s.attributes.lookup "style" = s.style := by
    rintro ⟨l, p, sh, st⟩
    cases l <;> cases p <;> cases sh <;> cases st <;> exact ⟨rfl, rfl, rfl, rfl⟩
  intro s s' h
  obtain ⟨hl, hp, hsh, hst⟩ := hlookup s
  obtain ⟨hl', hp', hsh', hst'⟩ := hlookup s'
  rw [h] at hl hp hsh hst
  cases s
  cases s'
  simp only [NodeStyle.mk.injEq]
  exact ⟨hl.symm.trans hl', hp.symm.trans hp', hsh.symm.trans hsh', hst.symm.trans hst'⟩

theorem EdgeStyle.attributes_injective : Function.Injective EdgeStyle.attributes := by
  rintro ⟨l⟩ ⟨l'⟩ h
  cases l <;> cases l' <;> simp_all [attributes, ifSet]

theorem mem_ifSet {key : String} {value : Option String} {a : String × String}
    (h : a ∈ ifSet key value) : a.1 = key := by
  obtain ⟨v, -, rfl⟩ := List.mem_map.1 h
  rfl

theorem NodeStyle.notMem_key (s : NodeStyle) : ∀ a ∈ s.attributes, '=' ∉ a.1.toList := by
  intro a ha
  rcases List.mem_append.1 ha with ha | ha
  · rcases List.mem_append.1 ha with ha | ha
    · rcases List.mem_append.1 ha with ha | ha
      · exact mem_ifSet ha ▸ by decide
      · exact mem_ifSet ha ▸ by decide
    · exact mem_ifSet ha ▸ by decide
  · exact mem_ifSet ha ▸ by decide

theorem EdgeStyle.notMem_key (s : EdgeStyle) : ∀ a ∈ s.attributes, '=' ∉ a.1.toList :=
  fun _ ha => mem_ifSet ha ▸ by decide

theorem unambiguousOn_nodeStyle :
    UnambiguousOn Set.univ fun s : NodeStyle => writeAttributes s.attributes ++ [';'] :=
  unambiguousOn_writeAttributes.comp (fun s _ => s.notMem_key) NodeStyle.attributes_injective.injOn

theorem unambiguousOn_edgeStyle :
    UnambiguousOn Set.univ fun s : EdgeStyle => writeAttributes s.attributes ++ [';'] :=
  unambiguousOn_writeAttributes.comp (fun s _ => s.notMem_key) EdgeStyle.attributes_injective.injOn

/-! ### Statements -/

/-- What is written for a node or for an edge. -/
inductive Statement where
  /-- A node and how it is drawn. -/
  | node (name : String) (style : NodeStyle)
  /-- An edge and how it is drawn. -/
  | edge (source target : String) (style : EdgeStyle)

/-- The characters of a statement. -/
def Statement.write : Statement → List Char
  | .node name style => writeNode (name, style)
  | .edge source target style => writeEdge source target style

/-- A statement begins with a name. -/
theorem Statement.exists_write (st : Statement) : ∃ cs, st.write = '"' :: cs := by
  cases st with
  | node name style => exact ⟨_, rfl⟩
  | edge source target style => exact ⟨_, rfl⟩

/-- Behind a node stand its attributes or nothing, and no arrow. -/
theorem writeAttributes_ne_arrow (as : List (String × String)) (r s : List Char) :
    writeAttributes as ++ ';' :: r ≠ '-' :: s := by
  cases as with
  | nil => exact fun heq => absurd (List.cons.inj heq).1 (by decide)
  | cons a as => exact fun heq => absurd (List.cons.inj heq).1 (by decide)

theorem unambiguousOn_statement : UnambiguousOn Set.univ Statement.write := by
  have htext := unambiguousOn_writeText
  rintro (⟨n, st⟩ | ⟨a, b, st⟩) - (⟨n', st'⟩ | ⟨a', b', st'⟩) - r s heq
  · simp only [Statement.write, writeNode, List.append_assoc] at heq
    obtain ⟨rfl, hstyle⟩ := htext _ trivial _ trivial _ _ heq
    obtain ⟨rfl, hrs⟩ := unambiguousOn_nodeStyle st trivial st' trivial r s (by simpa using hstyle)
    exact ⟨rfl, hrs⟩
  · simp only [Statement.write, writeNode, writeEdge, List.append_assoc, List.cons_append] at heq
    obtain ⟨-, heq⟩ := htext _ trivial _ trivial _ _ heq
    exact absurd heq (writeAttributes_ne_arrow _ _ _)
  · simp only [Statement.write, writeNode, writeEdge, List.append_assoc, List.cons_append] at heq
    obtain ⟨-, heq⟩ := htext _ trivial _ trivial _ _ heq
    exact absurd heq.symm (writeAttributes_ne_arrow _ _ _)
  · simp only [Statement.write, writeEdge, List.append_assoc, List.cons_append] at heq
    obtain ⟨rfl, harrow⟩ := htext _ trivial _ trivial _ _ heq
    rw [List.cons.injEq, List.cons.injEq] at harrow
    obtain ⟨rfl, hstyle⟩ := htext _ trivial _ trivial _ _ harrow.2.2
    obtain ⟨rfl, hrs⟩ := unambiguousOn_edgeStyle st trivial st' trivial r s (by simpa using hstyle)
    exact ⟨rfl, hrs⟩

/-- Statements up to the brace that ends the graph. -/
theorem unambiguousOn_statements :
    UnambiguousOn Set.univ fun sts : List Statement => sts.flatMap Statement.write ++ ['\x7d'] := by
  refine (unambiguousOn_statement.flatMap '\x7d' fun st _ r s heq => ?_).mono
    fun sts _ st _ => trivial
  obtain ⟨cs, hcs⟩ := st.exists_write
  rw [hcs] at heq
  exact absurd (List.cons.inj heq).1 (by decide)

/-! ### Graphs -/

namespace Graph

variable {g h : Graph}

/-- The statements of a graph. -/
def statements (g : Graph) : List Statement :=
  g.nodes.map (fun n => .node n.1 n.2) ++
    (ungroup g.edges).map fun e => .edge e.1.1 e.1.2 e.2

theorem write_eq (g : Graph) :
    g.write = "digraph \x7b".toList ++
      (writeRankDir g.rankDir ++ (g.statements.flatMap Statement.write ++ ['\x7d'])) := by
  have hedges : ∀ es : List ((String × String) × List EdgeStyle),
      ((ungroup es).map fun e => Statement.edge e.1.1 e.1.2 e.2).flatMap Statement.write =
        es.flatMap writeEdges := by
    intro es
    induction es with
    | nil => rfl
    | cons e es ih =>
      rw [ungroup_cons, List.map_append, List.flatMap_append, ih, List.flatMap_cons, List.map_map,
        List.flatMap_map]
      rfl
  have hwrite : g.write = "digraph \x7b".toList ++ writeRankDir g.rankDir ++
      g.nodes.flatMap writeNode ++ g.edges.flatMap writeEdges ++ ['\x7d'] := rfl
  rw [hwrite, statements, List.flatMap_append, hedges, List.flatMap_map, List.append_assoc,
    List.append_assoc, List.append_assoc, List.append_assoc]
  rfl

/-- The direction, if there is one, can be told from the statements behind it. -/
theorem unambiguousOn_body :
    UnambiguousOn Set.univ fun b : Option String × List Statement =>
      writeRankDir b.1 ++ (b.2.flatMap Statement.write ++ ['\x7d']) := by
  have hdir : UnambiguousOn Set.univ fun v : String => writeAttribute "rankdir" v :=
    unambiguousOn_writeAttribute.comp
      (fun v _ => show '=' ∉ "rankdir".toList by decide) fun _ _ _ _ heq => (Prod.mk.inj heq).2
  -- neither a statement nor the last brace begins like the direction
  have hne : ∀ (sts : List Statement) (v : String) (r s : List Char),
      sts.flatMap Statement.write ++ '\x7d' :: r ≠ writeAttribute "rankdir" v ++ s := by
    intro sts v r s heq
    have hr : ∃ cs, writeAttribute "rankdir" v ++ s = 'r' :: cs := ⟨_, rfl⟩
    obtain ⟨cs, hcs⟩ := hr
    rw [hcs] at heq
    cases sts with
    | nil => exact absurd (List.cons.inj heq).1 (by decide)
    | cons st sts =>
      obtain ⟨ds, hds⟩ := st.exists_write
      rw [List.flatMap_cons, hds] at heq
      exact absurd (List.cons.inj heq).1 (by decide)
  rintro ⟨v, sts⟩ - ⟨v', sts'⟩ - r s heq
  simp only [List.append_assoc, List.singleton_append] at heq
  cases v with
  | none =>
    cases v' with
    | none =>
      obtain ⟨rfl, hrs⟩ := unambiguousOn_statements sts trivial sts' trivial r s
        (by simpa [writeRankDir] using heq)
      exact ⟨rfl, hrs⟩
    | some v' => exact absurd (by simpa [writeRankDir] using heq) (hne sts v' r _)
  | some v =>
    cases v' with
    | none => exact absurd (by simpa [writeRankDir] using heq.symm) (hne sts' v s _)
    | some v' =>
      obtain ⟨rfl, heq⟩ := hdir v trivial v' trivial _ _ (by simpa [writeRankDir] using heq)
      obtain ⟨rfl, hrs⟩ := unambiguousOn_statements sts trivial sts' trivial r s
        (by simpa using (List.cons.inj heq).2)
      exact ⟨rfl, hrs⟩

/-- Graphs with the same text have the same direction and the same statements. -/
theorem statements_eq_of_print_eq (heq : g.print = h.print) :
    g.rankDir = h.rankDir ∧ g.statements = h.statements := by
  have hwrite : g.write = h.write := String.ofList_injective heq
  rw [write_eq, write_eq] at hwrite
  obtain ⟨hbody, -⟩ := unambiguousOn_body (g.rankDir, g.statements) trivial
    (h.rankDir, h.statements) trivial [] [] (congrArg (· ++ []) (List.append_cancel_left hwrite))
  exact Prod.mk.inj hbody

/-- The statements tell the nodes and the edges. -/
theorem nodes_eq_of_statements_eq (heq : g.statements = h.statements) :
    g.nodes = h.nodes ∧ ungroup g.edges = ungroup h.edges := by
  have hsplit : ∀ g : Graph,
      (g.statements.filterMap fun | .node n st => some (n, st) | .edge _ _ _ => none) = g.nodes ∧
      (g.statements.filterMap fun
        | .node _ _ => none
        | .edge a b st => some ((a, b), st)) = ungroup g.edges := by
    intro g
    rw [statements, List.filterMap_append, List.filterMap_append, List.filterMap_map,
      List.filterMap_map, List.filterMap_map, List.filterMap_map]
    constructor
    · simp
    · simp
  obtain ⟨hnodes, hedges⟩ := hsplit g
  obtain ⟨hnodes', hedges'⟩ := hsplit h
  rw [heq] at hnodes hedges
  exact ⟨hnodes.symm.trans hnodes', hedges.symm.trans hedges'⟩

/-- Graphs in order with the same text are the same. -/
theorem Ordered.print_inj (hg : g.Ordered) (hh : h.Ordered) : g.print = h.print ↔ g = h := by
  constructor
  · intro heq
    obtain ⟨hrank, hstatements⟩ := statements_eq_of_print_eq heq
    obtain ⟨hnodes, hungroup⟩ := nodes_eq_of_statements_eq hstatements
    have hedges : g.edges = h.edges :=
      ungroup_injective hg.nodup_pairs hg.edges_ne_nil hh.nodup_pairs hh.edges_ne_nil hungroup
    cases g
    cases h
    simp only [mk.injEq]
    exact ⟨hrank, hnodes, hedges⟩
  · rintro rfl
    rfl

/-- **The text of a graph loses nothing.**  Whatever calls have made two graphs, their texts are
the same just if the calls have set the same direction last, have mentioned the same nodes in the
same order, have given every attribute of every node the same value last, have joined the same
pairs in the same order, and have put the same edges between each pair, one after another. -/
theorem print_ofCalls_eq_iff (cs ds : List Call) :
    (ofCalls cs).print = (ofCalls ds).print ↔
      Calls.rankDir cs = Calls.rankDir ds ∧ Calls.names cs = Calls.names ds ∧
        (∀ name a, Calls.value cs name a = Calls.value ds name a) ∧
        Calls.pairs cs = Calls.pairs ds ∧
        ∀ pair, Calls.labels cs pair = Calls.labels ds pair := by
  rw [(ordered_ofCalls cs).print_inj (ordered_ofCalls ds), ofCalls_eq_iff]

/-- Both edges from `a` to `b` are written, and a mark within a text behind a backslash. -/
example : (ofCalls [.node "a" [(.label, "\"")], .edge "a" "b" ["x"], .edge "b" "a" [],
      .edge "a" "b" []]).print =
    "digraph \x7b\"a\"[label=\"\\\"\"];\"b\";" ++
      "\"a\"->\"b\"[label=\"x\"];\"a\"->\"b\";\"b\"->\"a\";\x7d" :=
  rfl

end Graph

end Dot

end RegexAutomata
