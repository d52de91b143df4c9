/-
The two orders in which the nodes of an expression are visited.

Both are read off a stack, one step after another: a step ends the visit, or it shows a node, or
it does no more than put nodes on the stack (`Step`).  From any stack the visit ends, and shows
what the two orders say (`shows_preStep_iff`, `shows_postStep_iff`).  What is shown from a single
expression is what a recursion on the expression lists, the root before what is below it
(`preOrder_eq_rootFirst`) or behind it (`postOrder_eq_rootLast`), and every place in the
expression is visited once (`visitsOnce_preOrder`, `visitsOnce_postOrder`).
-/
import Mathlib.Data.List.Perm.Basic
import RegexAutomata.Proofs.Places

namespace RegexAutomata.Regex

variable {e l r : Regex}

/-! ### Step by step -/

section Shows

/-- What a step comes to: the node that it shows, if it shows one, and what is left to visit. -/
abbrev Step (σ : Type) := Option Regex × σ

/-- From `s` on, a visit ends after it has shown these nodes. -/
inductive Shows {σ : Type} (next : σ → Option (Step σ)) : σ → List Regex → Prop
  /-- Nothing is left to visit. -/
  | done {s : σ} (h : next s = none) : Shows next s []
  /-- A node is shown. -/
  | node {s s' : σ} {e : Regex} {es : List Regex} (h : next s = some (some e, s'))
      (rest : Shows next s' es) : Shows next s (e :: es)
  /-- Only what is left to visit changes. -/
  | silent {s s' : σ} {es : List Regex} (h : next s = some (none, s'))
      (rest : Shows next s' es) : Shows next s es

variable {σ : Type} {next : σ → Option (Step σ)} {s : σ} {es ds : List Regex}

/-- A visit has only one course. -/
theorem Shows.unique (h : Shows next s es) (h' : Shows next s ds) : es = ds := by
  induction h generalizing ds with
  | done hs =>
    cases h' with
    | done => rfl
    | node hs' | silent hs' =>
      rw [hs] at hs'
      cases hs'
  | node hs rest ih =>
    cases h' with
    | node hs' rest' =>
      rw [hs] at hs'
      cases hs'
      rw [ih rest']
    | done hs' | silent hs' =>
      rw [hs] at hs'
      cases hs'
  | silent hs rest ih =>
    cases h' with
    | silent hs' rest' =>
      rw [hs] at hs'
      cases hs'
      exact ih rest'
    | done hs' | node hs' =>
      rw [hs] at hs'
      cases hs'

end Shows

/-- Take an expression off the stack, show it and put what is below it there. -/
def preStep : List Regex → Option (Step (List Regex))
  | [] => none
  | e :: stack => some (some e, e.children ++ stack)

/-- Take an expression off the stack.  Show it if what is below it has been there; else put it
back, with what is below it on top. -/
def postStep : List Pending → Option (Step (List Pending))
  | [] => none
  | ⟨e, true⟩ :: stack => some (some e, stack)
  | ⟨e, false⟩ :: stack => some (none, e.children.map fresh ++ ⟨e, true⟩ :: stack)

theorem shows_preOrderOf (stack : List Regex) : Shows preStep stack (preOrderOf stack) := by
  fun_induction preOrderOf stack with
  | case1 => exact .done rfl
  | case2 e stack ih => exact .node rfl ih

theorem shows_postOrderOf (stack : List Pending) : Shows postStep stack (postOrderOf stack) := by
  fun_induction postOrderOf stack with
  | case1 => exact .done rfl
  | case2 e stack ih => exact .node rfl ih
  | case3 e stack ih => exact .silent rfl ih

/-- The visit ends, and shows the nodes in pre-order. -/
theorem shows_preStep_iff {nodes : List Regex} :
    Shows preStep [e] nodes ↔ nodes = e.preOrder :=
  ⟨fun h => h.unique (shows_preOrderOf _), fun h => h ▸ shows_preOrderOf _⟩

/-- The visit ends, and shows the nodes in post-order. -/
theorem shows_postStep_iff {nodes : List Regex} :
    Shows postStep [fresh e] nodes ↔ nodes = e.postOrder :=
  ⟨fun h => h.unique (shows_postOrderOf _), fun h => h ▸ shows_postOrderOf _⟩

/-! ### By recursion -/

/-- The root, then the nodes on its left, then those on its right. -/
def rootFirst : Regex → List Regex
  | .operand o => [.operand o]
  | .star e => .star e :: e.rootFirst
  | .concat l r => .concat l r :: (l.rootFirst ++ r.rootFirst)
  | .union l r => .union l r :: (l.rootFirst ++ r.rootFirst)

/-- The nodes on the left of the root, then those on its right, then the root. -/
def rootLast : Regex → List Regex
  | .operand o => [.operand o]
  | .star e => e.rootLast ++ [.star e]
  | .concat l r => l.rootLast ++ r.rootLast ++ [.concat l r]
  | .union l r => l.rootLast ++ r.rootLast ++ [.union l r]

theorem preOrder_eq_rootFirst (e : Regex) : e.preOrder = e.rootFirst := by
  induction e with
  | operand o => exact preOrder_operand o
  | star e ih => rw [preOrder_star, ih, rootFirst]
  | concat l r ihl ihr => rw [preOrder_concat, ihl, ihr, rootFirst]
  | union l r ihl ihr => rw [preOrder_union, ihl, ihr, rootFirst]

/-- What lies deeper on the stack is shown later. -/
theorem postOrderOf_append (ps qs : List Pending) :
    postOrderOf (ps ++ qs) = postOrderOf ps ++ postOrderOf qs := by
  fun_induction postOrderOf ps with
  | case1 => rfl
  | case2 e stack ih => rw [List.cons_append, postOrderOf, ih, List.cons_append]
  | case3 e stack ih =>
    rw [List.cons_append, postOrderOf, ← ih, List.append_assoc, List.cons_append]

theorem postOrder_eq (e : Regex) :
    e.postOrder = postOrderOf (e.children.map fresh) ++ [e] := by
  rw [postOrder, fresh, postOrderOf, postOrderOf_append, postOrderOf, postOrderOf]

theorem postOrderOf_pair (l r : Regex) :
    postOrderOf ([l, r].map fresh) = l.postOrder ++ r.postOrder :=
  postOrderOf_append [fresh l] [fresh r]

theorem postOrder_eq_rootLast (e : Regex) : e.postOrder = e.rootLast := by
  induction e with
  | operand o => rw [postOrder_eq, children, List.map_nil, postOrderOf, rootLast, List.nil_append]
  | star e ih => rw [postOrder_eq, rootLast, ← ih]; rfl
  | concat l r ihl ihr => rw [postOrder_eq, children, postOrderOf_pair, ihl, ihr, rootLast]
  | union l r ihl ihr => rw [postOrder_eq, children, postOrderOf_pair, ihl, ihr, rootLast]

/-! ### Every place once -/

/-- The places on the left of the root, then those on its right, then the root. -/
def joinLast (ls rs : List (List Side)) : List (List Side) :=
  ls.map (.left :: ·) ++ rs.map (.right :: ·) ++ [[]]

/-- The places of all nodes, each behind those below it, and those on the left first. -/
def placesLast : Regex → List (List Side)
  | .operand _ => joinLast [] []
  | .star e => joinLast e.placesLast []
  | .concat l r => joinLast l.placesLast r.placesLast
  | .union l r => joinLast l.placesLast r.placesLast

theorem map_at?_joinLast {ls rs : List (List Side)} :
    (joinLast ls rs).map e.at? =
      ls.map (fun place => e.left?.bind (·.at? place)) ++
        rs.map (fun place => e.right?.bind (·.at? place)) ++ [some e] := by
  rw [joinLast, List.map_append, List.map_append, List.map_map, List.map_map]
  rfl

/-- Post-order finds at each place the node that stands there. -/
theorem map_at?_placesLast (e : Regex) : e.placesLast.map e.at? = e.rootLast.map some := by
  induction e with
  | operand o => rfl
  | star e ih =>
    rw [placesLast, map_at?_joinLast, rootLast, List.map_append, ← ih]
    exact congrArg (· ++ _) (List.append_nil _)
  | concat l r ihl ihr | union l r ihl ihr =>
    rw [placesLast, map_at?_joinLast, rootLast, List.map_append, List.map_append, ← ihl, ← ihr]
    rfl

theorem joinLast_perm_join {ls ls' rs rs' : List (List Side)} (hl : ls.Perm ls')
    (hr : rs.Perm rs') : (joinLast ls rs).Perm (join ls' rs') :=
  (List.perm_append_singleton _ _).trans (((hl.map _).append (hr.map _)).cons _)

/-- Both orders visit the same places. -/
theorem placesLast_perm_places (e : Regex) : e.placesLast.Perm e.places := by
  induction e with
  | operand o => exact joinLast_perm_join .nil .nil
  | star e ih => exact joinLast_perm_join ih .nil
  | concat l r ihl ihr | union l r ihl ihr => exact joinLast_perm_join ihl ihr

/-- The nodes are those that stand at these places of the expression, which are all that it has,
none of them twice. -/
structure VisitsOnce (e : Regex) (places : List (List Side)) (nodes : List Regex) : Prop where
  nodup : places.Nodup
  mem_iff (place : List Side) : place ∈ places ↔ (e.at? place).isSome = true
  map_at?_eq : places.map e.at? = nodes.map some

theorem visitsOnce_preOrder (e : Regex) : e.VisitsOnce e.places e.preOrder :=
  ⟨nodup_places e, fun _ => mem_places_iff, map_at?_places e⟩

theorem visitsOnce_postOrder (e : Regex) : e.VisitsOnce e.placesLast e.postOrder where
  nodup := (placesLast_perm_places e).nodup_iff.2 (nodup_places e)
  mem_iff place := (placesLast_perm_places e).mem_iff.trans mem_places_iff
  map_at?_eq := by rw [map_at?_placesLast, postOrder_eq_rootLast]

/-- Whoever visits every place once shows the same nodes, though it may be in another order. -/
theorem VisitsOnce.perm {ps qs : List (List Side)} {es ds : List Regex} (h : e.VisitsOnce ps es)
    (h' : e.VisitsOnce qs ds) : es.Perm ds := by
  have hplaces : ps.Perm qs := (List.perm_ext_iff_of_nodup h.nodup h'.nodup).2 fun place =>
    (h.mem_iff place).trans (h'.mem_iff place).symm
  have hnodes := hplaces.map e.at?
  rw [h.map_at?_eq, h'.map_at?_eq] at hnodes
  exact (List.map_perm_map_iff fun _ _ => Option.some.inj).1 hnodes

/-- **The two orders.**  A visit by way of a stack ends, and it shows the root before the nodes on
its left and these before the nodes on its right, or the root behind them all; both ways it comes
to every place in the expression once, and so to the same nodes. -/
theorem traversals (e : Regex) :
    (∀ nodes, Shows preStep [e] nodes ↔ nodes = e.preOrder) ∧
    (∀ nodes, Shows postStep [fresh e] nodes ↔ nodes = e.postOrder) ∧
    e.preOrder = e.rootFirst ∧ e.postOrder = e.rootLast ∧
    e.VisitsOnce e.places e.preOrder ∧ e.VisitsOnce e.placesLast e.postOrder ∧
    e.preOrder.length = e.postOrder.length ∧ e.preOrder.Perm e.postOrder := by
  have hperm := (visitsOnce_preOrder e).perm (visitsOnce_postOrder e)
  exact ⟨fun _ => shows_preStep_iff, fun _ => shows_postStep_iff, preOrder_eq_rootFirst e,
    postOrder_eq_rootLast e, visitsOnce_preOrder e, visitsOnce_postOrder e, hperm.length_eq, hperm⟩

end RegexAutomata.Regex
