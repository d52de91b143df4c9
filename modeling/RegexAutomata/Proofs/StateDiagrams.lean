/-
The drawing of an automaton says all there is to say about it.

In the drawing of an automaton the states come first, each with its name, then the invisible
point if there is an initial state, and the transitions are the edges, with the one that leads
from the point to the initial state at the end (`WellLinked.graph_eq`).

No state is named like the point, so that states, transitions and both roles can be told from
the drawing (`WellLinked.graph_eq_iff`), and from its text as well, whatever the labels are
(`print_graph_eq_iff`).
-/
import RegexAutomata.Automaton.Drawing
import RegexAutomata.Proofs.Histories
import RegexAutomata.Proofs.Statements

namespace RegexAutomata

theorem State.name_injective {p q : State} (h : p.name = q.name) : p = q :=
  Nat.repr_injective ((String.append_right_inj "q").1 h)

namespace Automaton

variable {a b : Automaton}

theorem name_ne_startName (q : State) : q.name ≠ startName := by
  intro h
  have hlist := congrArg String.toList h
  rw [State.name, String.toList_append] at hlist
  exact absurd (List.cons.inj hlist).1 (by decide)

/-! ### What is drawn -/

/-- A state and how it is drawn. -/
def drawnState (a : Automaton) (q : State) : String × Dot.NodeStyle := (q.name, a.nodeStyle q {})

/-- The edge of a transition. -/
def drawnTransition (e : State × State × String) : (String × String) × List Dot.EdgeStyle :=
  ((e.1.name, e.2.1.name), [{ label := some e.2.2 }])

/-- The point before the initial state. -/
def drawnPoint (_ : State) : String × Dot.NodeStyle := (startName, startStyle {})

/-- The edge from the point to the initial state. -/
def drawnStart (q : State) : (String × String) × List Dot.EdgeStyle := ((startName, q.name), [{}])

theorem nodup_names (a : Automaton) : (a.states.map State.name).Nodup :=
  (nodup_states a).map fun _ _ => State.name_injective

/-- There is one transition at most from a state to another. -/
theorem nodup_ends (a : Automaton) :
    (a.transitions.map fun e => (e.1.name, e.2.1.name)).Nodup := by
  rw [List.Nodup, List.pairwise_map]
  refine (pairwise_transitions a).imp fun {d e} hde heq => ?_
  have hsource : d.1 = e.1 := State.name_injective (Prod.mk.inj heq).1
  have htarget : d.2.1 = e.2.1 := State.name_injective (Prod.mk.inj heq).2
  rcases hde with hlt | ⟨-, hlt⟩
  · exact Nat.ne_of_lt hlt hsource
  · exact Nat.ne_of_lt hlt htarget

/-- The states and the transitions are drawn one after another. -/
theorem WellLinked.foldl_edge (h : a.WellLinked) :
    a.transitions.foldl (fun g e => g.edge e.1.name e.2.1.name { label := some e.2.2 })
        (a.states.foldl (fun g q => g.node q.name (a.nodeStyle q))
          (Dot.Graph.empty.setRankDir "LR")) =
      { rankDir := some "LR"
        nodes := a.states.map a.drawnState
        edges := a.transitions.map drawnTransition } := by
  rw [Dot.Graph.foldl_node (fun _ _ => List.not_mem_nil) (nodup_names a),
    Dot.Graph.foldl_edge _ (fun _ _ => List.not_mem_nil) (nodup_ends a)]
  · rfl
  · intro e he
    obtain ⟨hp, hq⟩ := h.contains_of_label? (h.mem_transitions.1 he)
    have hnames : ∀ {q}, a.contains q = true → q.name ∈ (a.states.map a.drawnState).map Prod.fst :=
      fun hq => List.mem_map_of_mem (List.mem_map_of_mem (mem_states.2 hq))
    exact ⟨hnames hp, hnames hq⟩

/-- The drawing of an automaton, part by part. -/
theorem WellLinked.graph_eq (h : a.WellLinked) :
    a.graph =
      { rankDir := some "LR"
        nodes := a.states.map a.drawnState ++ a.initial.toList.map drawnPoint
        edges := a.transitions.map drawnTransition ++ a.initial.toList.map drawnStart } := by
  have hfst : (a.states.map a.drawnState).map Prod.fst = a.states.map State.name := by
    rw [List.map_map]
    rfl
  rw [graph]
  simp only [h.foldl_edge]
  rcases hi : a.initial with _ | i
  · simp
  · -- the point is new, and so is the edge that leaves it
    have hnew : startName ∉ (a.states.map a.drawnState).map Prod.fst := by
      rw [hfst]
      intro hmem
      obtain ⟨q, -, hq⟩ := List.mem_map.1 hmem
      exact name_ne_startName q hq
    have hedge : (startName, i.name) ∉ (a.transitions.map drawnTransition).map Prod.fst := by
      rw [List.map_map]
      intro hmem
      obtain ⟨e, -, he⟩ := List.mem_map.1 hmem
      exact name_ne_startName e.1 (Prod.mk.inj he).1
    have hstate : i.name ∈ (a.states.map a.drawnState).map Prod.fst := by
      rw [hfst]
      exact List.mem_map_of_mem (mem_states.2 (h.initial_mem i hi))
    show ((_ : Dot.Graph).node startName startStyle).edge startName i.name {} = _
    rw [Dot.Graph.node_of_notMem hnew, Dot.Graph.edge_of_notMem _ _ hedge]
    · rfl
    · rw [Dot.Graph.names, List.map_append]
      exact List.mem_append_right _ List.mem_cons_self
    · rw [Dot.Graph.names, List.map_append]
      exact List.mem_append_left _ hstate

/-! ### What the drawing tells -/

/-- Where a test tells the members of two parts apart, the parts are known. -/
theorem append_inj_of_test {α : Type} {test : α → Bool} {xs ys xs' ys' : List α}
    (hxs : ∀ x ∈ xs, test x = true) (hys : ∀ y ∈ ys, ¬test y = true)
    (hxs' : ∀ x ∈ xs', test x = true) (hys' : ∀ y ∈ ys', ¬test y = true)
    (h : xs ++ ys = xs' ++ ys') : xs = xs' ∧ ys = ys' := by
  have hfilter := congrArg (List.filter test) h
  rw [List.filter_append, List.filter_append, List.filter_eq_self.2 hxs,
    List.filter_eq_self.2 hxs', List.filter_eq_nil_iff.2 hys, List.filter_eq_nil_iff.2 hys',
    List.append_nil, List.append_nil] at hfilter
  rw [hfilter] at h
  exact ⟨hfilter, List.append_cancel_left h⟩

/-- The nodes tell the states, since none of them is named like the point. -/
theorem map_drawnState_inj {qs qs' ps ps' : List State}
    (h : qs.map a.drawnState ++ ps.map drawnPoint = qs'.map b.drawnState ++ ps'.map drawnPoint) :
    qs = qs' ∧ ∀ q ∈ qs, a.drawnState q = b.drawnState q := by
  have hstate : ∀ (c : Automaton) (qs : List State), ∀ n ∈ qs.map c.drawnState,
      decide (n.1 ≠ startName) = true := by
    intro c qs n hn
    obtain ⟨q, -, rfl⟩ := List.mem_map.1 hn
    exact decide_eq_true (name_ne_startName q)
  have hpoint : ∀ ps : List State, ∀ n ∈ ps.map drawnPoint, ¬decide (n.1 ≠ startName) = true := by
    intro ps n hn
    obtain ⟨q, -, rfl⟩ := List.mem_map.1 hn
    simp [drawnPoint]
  obtain ⟨hdrawn, -⟩ :=
    append_inj_of_test (hstate a qs) (hpoint ps) (hstate b qs') (hpoint ps') h
  have hnames := congrArg (List.map Prod.fst) hdrawn
  rw [List.map_map, List.map_map] at hnames
  have hqs : qs = qs' := (List.map_inj_right fun _ _ => State.name_injective).1 hnames
  subst hqs
  exact ⟨rfl, List.map_inj_left.1 hdrawn⟩

/-- The edges tell the transitions and the initial state, since only one arrow comes from the
point. -/
theorem map_drawnTransition_inj {es es' : List (State × State × String)} {ps ps' : List State}
    (h : es.map drawnTransition ++ ps.map drawnStart =
      es'.map drawnTransition ++ ps'.map drawnStart) : es = es' ∧ ps = ps' := by
  have htransition : ∀ es : List (State × State × String), ∀ x ∈ es.map drawnTransition,
      decide (x.1.1 ≠ startName) = true := by
    intro es x hx
    obtain ⟨e, -, rfl⟩ := List.mem_map.1 hx
    exact decide_eq_true (name_ne_startName e.1)
  have hstart : ∀ ps : List State, ∀ x ∈ ps.map drawnStart,
      ¬decide (x.1.1 ≠ startName) = true := by
    intro ps x hx
    obtain ⟨q, -, rfl⟩ := List.mem_map.1 hx
    simp [drawnStart]
  obtain ⟨hes, hps⟩ :=
    append_inj_of_test (htransition es) (hstart ps) (htransition es') (hstart ps') h
  constructor
  · refine (List.map_inj_right fun d e hde => ?_).1 hes
    simp only [drawnTransition, Prod.mk.injEq, List.cons.injEq, Dot.EdgeStyle.mk.injEq,
      Option.some.injEq, and_true] at hde
    exact Prod.ext (State.name_injective hde.1.1)
      (Prod.ext (State.name_injective hde.1.2) hde.2)
  · exact (List.map_inj_right fun p q hpq =>
      State.name_injective (Prod.mk.inj (Prod.mk.inj hpq).1).2).1 hps

/-- The borders tell the final state. -/
theorem WellLinked.final_eq (ha : a.WellLinked) (hb : b.WellLinked) (hstates : a.states = b.states)
    (h : ∀ q ∈ a.states, a.drawnState q = b.drawnState q) : a.final = b.final := by
  have hiff : ∀ q ∈ a.states, a.final = some q ↔ b.final = some q := by
    intro q hq
    have hborders := congrArg (fun n => n.2.peripheries) (h q hq)
    simp only [drawnState, nodeStyle] at hborders
    constructor
    · intro hf
      rw [if_pos hf] at hborders
      by_contra hne
      rw [if_neg hne] at hborders
      cases hborders
    · intro hf
      rw [if_pos hf] at hborders
      by_contra hne
      rw [if_neg hne] at hborders
      cases hborders
  rcases hf : a.final with _ | f
  · rcases hf' : b.final with _ | f'
    · rfl
    · have hmem : f' ∈ a.states := hstates ▸ mem_states.2 (hb.final_mem f' hf')
      rw [(hiff f' hmem).2 hf'] at hf
      cases hf
  · exact ((hiff f (mem_states.2 (ha.final_mem f hf))).1 hf).symm

/-- The drawing tells all there is. -/
theorem WellLinked.graph_eq_iff (ha : a.WellLinked) (hb : b.WellLinked) :
    a.graph = b.graph ↔
      a.states = b.states ∧ a.transitions = b.transitions ∧ a.initial = b.initial ∧
        a.final = b.final := by
  rw [ha.graph_eq, hb.graph_eq, Dot.Graph.mk.injEq]
  constructor
  · rintro ⟨-, hnodes, hedges⟩
    obtain ⟨hstates, hdrawn⟩ := map_drawnState_inj hnodes
    obtain ⟨htransitions, hinitial⟩ := map_drawnTransition_inj hedges
    refine ⟨hstates, htransitions, ?_, ha.final_eq hb hstates hdrawn⟩
    rw [← Option.head?_toList (o := a.initial), hinitial, Option.head?_toList]
  · rintro ⟨hstates, htransitions, hinitial, hfinal⟩
    have hdrawn : a.drawnState = b.drawnState := by
      funext q
      rw [drawnState, drawnState, nodeStyle, nodeStyle, hfinal]
    rw [hstates, htransitions, hinitial, hdrawn]
    exact ⟨rfl, rfl, rfl⟩

/-- Of two transitions one at most is listed before the other. -/
theorem asymm_ends {d e : State × State × String} (hde : d.1 < e.1 ∨ d.1 = e.1 ∧ d.2.1 < e.2.1) :
    ¬(e.1 < d.1 ∨ e.1 = d.1 ∧ e.2.1 < d.2.1) := by
  rcases hde with hlt | ⟨heq, hlt⟩
  · rintro (hgt | ⟨heq, -⟩)
    · exact Nat.lt_asymm hlt hgt
    · exact Nat.ne_of_lt hlt heq.symm
  · rintro (hgt | ⟨-, hgt⟩)
    · exact Nat.ne_of_lt hgt heq.symm
    · exact Nat.lt_asymm hlt hgt

/-- The transitions are listed alike just if the labels are the same. -/
theorem WellLinked.transitions_eq_iff (ha : a.WellLinked) (hb : b.WellLinked) :
    a.transitions = b.transitions ↔ ∀ p q, a.label? p q = b.label? p q := by
  constructor
  · intro h p q
    refine Option.ext fun label => ?_
    rw [← ha.mem_transitions, ← hb.mem_transitions, h]
  · intro h
    have : Std.Asymm fun d e : State × State × String => d.1 < e.1 ∨ d.1 = e.1 ∧ d.2.1 < e.2.1 :=
      ⟨fun _ _ => asymm_ends⟩
    refine (pairwise_transitions a).eq_of_mem_iff (pairwise_transitions b) fun ⟨p, q, label⟩ => ?_
    rw [ha.mem_transitions, hb.mem_transitions, h]

theorem ordered_graph (a : Automaton) : a.graph.Ordered := by
  have hnodes := List.foldlRecOn a.states (fun g q => g.node q.name (a.nodeStyle q))
    (Dot.Graph.ordered_empty.setRankDir "LR") fun g hg q _ => hg.node q.name (a.nodeStyle q)
  have hedges := List.foldlRecOn a.transitions
    (fun g e => g.edge e.1.name e.2.1.name { label := some e.2.2 }) hnodes
    fun g hg e _ => hg.edge e.1.name e.2.1.name { label := some e.2.2 }
  rw [graph]
  split
  · exact (hedges.node startName startStyle).edge startName _ {}
  · exact hedges

/-- **The text of a drawing tells the automaton.**  The drawings of two automata are written with
the same text just if the automata have the same states, the same transitions with the same
labels, whatever characters these are made of, the same initial and the same final state. -/
theorem print_graph_eq_iff (ha : a.Reachable) (hb : b.Reachable) :
    a.graph.print = b.graph.print ↔
      a.states = b.states ∧ (∀ p q, a.label? p q = b.label? p q) ∧ a.initial = b.initial ∧
        a.final = b.final := by
  have ha := ha.wellLinked
  have hb := hb.wellLinked
  rw [(ordered_graph a).print_inj (ordered_graph b), ha.graph_eq_iff hb, ha.transitions_eq_iff hb]

/-- A label that is a mark and one that is the mark behind a backslash make two texts, although
the second label is how the first one is written. -/
theorem print_graph_eq_iff_marks :
    let a := empty.afterAll [.request .addState, .request (.connect 0 0 "\"")]
    let b := empty.afterAll [.request .addState, .request (.connect 0 0 "\\\"")]
    a.Reachable ∧ b.Reachable ∧ a.graph.print ≠ b.graph.print := by
  intro a b
  have ha : a.Reachable := Reachable.empty.afterAll _
  have hb : b.Reachable := Reachable.empty.afterAll _
  refine ⟨ha, hb, fun h => ?_⟩
  have hlabel := ((print_graph_eq_iff ha hb).1 h).2.1 0 0
  revert hlabel
  subst a b
  decide

end Automaton

end RegexAutomata
