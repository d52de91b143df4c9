/-
The places of the nodes of an expression.

A place is the way from the root to a node.  Pre-order visits the places one after another, a
node before those below it and the left ones before the right ones (`places`), and finds at each
of them the node that stands there (`preOrder_getElem?`).  A node is below another one on a
side if its place is one step further on that side (`IsChild`); it is visited later, and the left
one first (`IsChild.left_lt_right`).
-/
import Mathlib.Data.List.Lex
import RegexAutomata.Regex.Traversal

namespace RegexAutomata.Regex

variable {e l r : Regex} {i j k : Nat}

/-! ### Pre-order -/

theorem preOrderOf_append (es ds : List Regex) :
    preOrderOf (es ++ ds) = preOrderOf es ++ preOrderOf ds := by
  fun_induction preOrderOf es with
  | case1 => rfl
  | case2 e stack ih =>
    rw [List.cons_append, preOrderOf, ← List.append_assoc, ih]
    rfl

theorem preOrder_eq (e : Regex) : e.preOrder = e :: preOrderOf e.children := by
  rw [preOrder, preOrderOf, List.append_nil]

theorem preOrder_operand (o : Operand) : (operand o).preOrder = [operand o] := by
  rw [preOrder_eq, children, preOrderOf]

theorem preOrder_star (e : Regex) : (star e).preOrder = star e :: e.preOrder := preOrder_eq _

theorem preOrder_concat (l r : Regex) :
    (concat l r).preOrder = concat l r :: (l.preOrder ++ r.preOrder) := by
  rw [preOrder_eq, children, show [l, r] = [l] ++ [r] from rfl, preOrderOf_append]
  rfl

theorem preOrder_union (l r : Regex) :
    (union l r).preOrder = union l r :: (l.preOrder ++ r.preOrder) := by
  rw [preOrder_eq, children, show [l, r] = [l] ++ [r] from rfl, preOrderOf_append]
  rfl

/-- Every node is visited once. -/
theorem length_preOrder (e : Regex) : e.preOrder.length = e.size := by
  induction e with
  | operand o => rw [preOrder_operand]; rfl
  | star e ih => rw [preOrder_star, List.length_cons, ih, size]
  | concat l r ihl ihr => rw [preOrder_concat, List.length_cons, List.length_append, ihl, ihr, size]
  | union l r ihl ihr => rw [preOrder_union, List.length_cons, List.length_append, ihl, ihr, size]

/-! ### Places -/

/-- A step from a node to the first or to the second one below it. -/
inductive Side where
  /-- To the first expression below. -/
  | left
  /-- To the second expression below. -/
  | right
  deriving DecidableEq

/-- The expression below on a side. -/
def below? (e : Regex) : Side → Option Regex
  | .left => e.left?
  | .right => e.right?

/-- The node to which a way leads from the root, if it leads to any. -/
def at? (e : Regex) : List Side → Option Regex
  | [] => some e
  | side :: place => (e.below? side).bind (·.at? place)

/-- The root, then the places on its left, then those on its right. -/
def join (ls rs : List (List Side)) : List (List Side) :=
  [] :: (ls.map (.left :: ·) ++ rs.map (.right :: ·))

/-- The places of all nodes, each before those below it, and those on the left first. -/
def places : Regex → List (List Side)
  | .operand _ => join [] []
  | .star e => join e.places []
  | .concat l r => join l.places r.places
  | .union l r => join l.places r.places

theorem map_at?_join {e : Regex} {ls rs : List (List Side)} :
    (join ls rs).map e.at? =
      some e :: (ls.map (fun place => e.left?.bind (·.at? place)) ++
        rs.map fun place => e.right?.bind (·.at? place)) := by
  rw [join, List.map_cons, List.map_append, List.map_map, List.map_map]
  rfl

/-- Pre-order finds at each place the node that stands there. -/
theorem map_at?_places (e : Regex) : e.places.map e.at? = e.preOrder.map some := by
  induction e with
  | operand o => rw [places, map_at?_join, preOrder_operand]; rfl
  | star e ih =>
    rw [places, map_at?_join, preOrder_star, List.map_cons, ← ih]
    exact congrArg _ (List.append_nil _)
  | concat l r ihl ihr =>
    rw [places, map_at?_join, preOrder_concat, List.map_cons, List.map_append, ← ihl, ← ihr]
    rfl
  | union l r ihl ihr =>
    rw [places, map_at?_join, preOrder_union, List.map_cons, List.map_append, ← ihl, ← ihr]
    rfl

/-- The node that pre-order visits as the `k`-th stands at the `k`-th place. -/
theorem preOrder_getElem? (e : Regex) (k : Nat) :
    e.preOrder[k]? = e.places[k]?.bind e.at? := by
  have h := congrArg (·[k]?) (map_at?_places e)
  simp only [List.getElem?_map] at h
  rcases hk : e.places[k]? with _ | place
  · rw [hk] at h
    exact Option.map_eq_none_iff.1 h.symm
  · rw [hk] at h
    obtain ⟨d, hd, hat⟩ := Option.map_eq_some_iff.1 h.symm
    rw [hd, Option.bind_some, ← hat]

theorem length_places (e : Regex) : e.places.length = e.size := by
  have h := congrArg List.length (map_at?_places e)
  rwa [List.length_map, List.length_map, length_preOrder] at h

theorem mem_join {ls rs : List (List Side)} {place : List Side} :
    place ∈ join ls rs ↔
      place = [] ∨ (∃ p ∈ ls, .left :: p = place) ∨ ∃ p ∈ rs, .right :: p = place := by
  rw [join, List.mem_cons, List.mem_append, List.mem_map, List.mem_map]

/-- Every node is visited. -/
theorem mem_places_iff {place : List Side} : place ∈ e.places ↔ (e.at? place).isSome = true := by
  induction e generalizing place with
  | operand o =>
    rw [places, mem_join]
    cases place with
    | nil => simp [at?]
    | cons side place => cases side <;> simp [at?, below?, left?, right?]
  | star e ih =>
    rw [places, mem_join]
    cases place with
    | nil => simp [at?]
    | cons side place => cases side <;> simp [at?, below?, left?, right?, ih]
  | concat l r ihl ihr | union l r ihl ihr =>
    rw [places, mem_join]
    cases place with
    | nil => simp [at?]
    | cons side place => cases side <;> simp [at?, below?, left?, right?, ihl, ihr]

/-- A step further leads to the node below. -/
theorem at?_append (e : Regex) (place : List Side) (side : Side) :
    e.at? (place ++ [side]) = (e.at? place).bind (·.below? side) := by
  induction place generalizing e with
  | nil => simp [at?]
  | cons s place ih =>
    rw [List.cons_append, at?, at?, Option.bind_assoc]
    exact congrArg _ (funext fun d => ih d)

/-! ### Nodes below nodes -/

/-- Of some places, the `j`-th one is a step further than the `i`-th one on a side. -/
def StepIn (ps : List (List Side)) (side : Side) (i j : Nat) : Prop :=
  ∃ place, ps[i]? = some place ∧ ps[j]? = some (place ++ [side])

/-- The `j`-th node that is visited is the one below the `i`-th one on a side. -/
def IsChild (e : Regex) (side : Side) (i j : Nat) : Prop := StepIn e.places side i j

/-- The `k`-th place is the root, or one of the places on the left or on the right. -/
theorem getElem?_join {ls rs : List (List Side)} {place : List Side} :
    (join ls rs)[k]? = some place ↔
      (k = 0 ∧ place = []) ∨
      (∃ m p, k = m + 1 ∧ place = .left :: p ∧ ls[m]? = some p) ∨
      ∃ m p, k = m + (ls.length + 1) ∧ place = .right :: p ∧ rs[m]? = some p := by
  have hright : ∀ {m p : _}, k = m + (ls.length + 1) → rs[m]? = some p →
      (join ls rs)[k]? = some (.right :: p) := by
    intro m p hk hp
    rw [hk, ← Nat.add_assoc, join, List.getElem?_cons_succ,
      List.getElem?_append_right (by rw [List.length_map]; exact Nat.le_add_left _ _),
      List.length_map, Nat.add_sub_cancel, List.getElem?_map, hp]
    rfl
  constructor
  · intro h
    rcases k with _ | k
    · exact Or.inl ⟨rfl, (Option.some.inj h).symm⟩
    · rw [join, List.getElem?_cons_succ] at h
      by_cases hk : k < ls.length
      · rw [List.getElem?_append_left (by rwa [List.length_map]), List.getElem?_map,
          Option.map_eq_some_iff] at h
        obtain ⟨p, hp, rfl⟩ := h
        exact Or.inr (Or.inl ⟨k, p, rfl, rfl, hp⟩)
      · rw [List.getElem?_append_right (by rw [List.length_map]; omega), List.length_map,
          List.getElem?_map, Option.map_eq_some_iff] at h
        obtain ⟨p, hp, rfl⟩ := h
        exact Or.inr (Or.inr ⟨k - ls.length, p, by omega, rfl, hp⟩)
  · rintro (⟨rfl, rfl⟩ | ⟨m, p, rfl, rfl, hp⟩ | ⟨m, p, hk, rfl, hp⟩)
    · rfl
    · obtain ⟨hm, -⟩ := List.getElem?_eq_some_iff.1 hp
      rw [join, List.getElem?_cons_succ, List.getElem?_append_left (by rwa [List.length_map]),
        List.getElem?_map, hp]
      rfl
    · exact hright hk hp

/-- The root is visited first. -/
theorem getElem?_places_eq_nil : e.places[k]? = some [] ↔ k = 0 := by
  have hjoin : ∀ ls rs : List (List Side), (join ls rs)[k]? = some [] ↔ k = 0 := by
    intro ls rs
    rw [getElem?_join]
    constructor
    · rintro (⟨hk, -⟩ | ⟨m, p, -, hp, -⟩ | ⟨m, p, -, hp, -⟩)
      · exact hk
      · cases hp
      · cases hp
    · exact fun hk => Or.inl ⟨hk, rfl⟩
  cases e with
  | operand o => exact hjoin [] []
  | star e => exact hjoin e.places []
  | concat l r | union l r => exact hjoin l.places r.places

/-- A step leads from the root to one of the two first places below it, or it is one on the
left or one on the right. -/
theorem stepIn_join {ls rs : List (List Side)} {side : Side} :
    StepIn (join ls rs) side i j ↔
      (i = 0 ∧ side = .left ∧ ∃ m, j = m + 1 ∧ ls[m]? = some []) ∨
      (i = 0 ∧ side = .right ∧ ∃ m, j = m + (ls.length + 1) ∧ rs[m]? = some []) ∨
      (∃ m n, i = m + 1 ∧ j = n + 1 ∧ StepIn ls side m n) ∨
      ∃ m n, i = m + (ls.length + 1) ∧ j = n + (ls.length + 1) ∧ StepIn rs side m n := by
  constructor
  · rintro ⟨place, hi, hj⟩
    rw [getElem?_join] at hi hj
    rcases hi with ⟨rfl, rfl⟩ | ⟨m, p, rfl, rfl, hp⟩ | ⟨m, p, rfl, rfl, hp⟩
    · rcases hj with ⟨-, h⟩ | ⟨n, q, rfl, h, hq⟩ | ⟨n, q, rfl, h, hq⟩
      · cases h
      · cases h
        exact Or.inl ⟨rfl, rfl, n, rfl, hq⟩
      · cases h
        exact Or.inr (Or.inl ⟨rfl, rfl, n, rfl, hq⟩)
    · rcases hj with ⟨-, h⟩ | ⟨n, q, rfl, h, hq⟩ | ⟨n, q, rfl, h, hq⟩
      · cases h
      · cases h
        exact Or.inr (Or.inr (Or.inl ⟨m, n, rfl, rfl, p, hp, hq⟩))
      · cases h
    · rcases hj with ⟨-, h⟩ | ⟨n, q, rfl, h, hq⟩ | ⟨n, q, rfl, h, hq⟩
      · cases h
      · cases h
      · cases h
        exact Or.inr (Or.inr (Or.inr ⟨m, n, rfl, rfl, p, hp, hq⟩))
  · rintro (⟨rfl, rfl, m, rfl, hm⟩ | ⟨rfl, rfl, m, rfl, hm⟩ | ⟨m, n, rfl, rfl, p, hm, hn⟩ |
      ⟨m, n, rfl, rfl, p, hm, hn⟩)
    · exact ⟨[], rfl, getElem?_join.2 (Or.inr (Or.inl ⟨m, [], rfl, rfl, hm⟩))⟩
    · exact ⟨[], rfl, getElem?_join.2 (Or.inr (Or.inr ⟨m, [], rfl, rfl, hm⟩))⟩
    · exact ⟨.left :: p, getElem?_join.2 (Or.inr (Or.inl ⟨m, p, rfl, rfl, hm⟩)),
        getElem?_join.2 (Or.inr (Or.inl ⟨n, _, rfl, rfl, hn⟩))⟩
    · exact ⟨.right :: p, getElem?_join.2 (Or.inr (Or.inr ⟨m, p, rfl, rfl, hm⟩)),
        getElem?_join.2 (Or.inr (Or.inr ⟨n, _, rfl, rfl, hn⟩))⟩

variable {side : Side}

theorem not_isChild_operand (o : Operand) : ¬(operand o).IsChild side i j := by
  rw [IsChild, places, stepIn_join]
  rintro (⟨-, -, m, -, hm⟩ | ⟨-, -, m, -, hm⟩ | ⟨m, n, -, -, p, hm, -⟩ | ⟨m, n, -, -, p, hm, -⟩) <;>
    cases hm

theorem isChild_star :
    (star e).IsChild side i j ↔
      (i = 0 ∧ j = 1 ∧ side = .left) ∨ ∃ m n, i = m + 1 ∧ j = n + 1 ∧ e.IsChild side m n := by
  rw [IsChild, places, stepIn_join]
  constructor
  · rintro (⟨rfl, rfl, m, rfl, hm⟩ | ⟨-, -, m, -, hm⟩ | ⟨m, n, rfl, rfl, h⟩ |
      ⟨m, n, -, -, p, hm, -⟩)
    · rw [getElem?_places_eq_nil.1 hm]
      exact Or.inl ⟨rfl, rfl, rfl⟩
    · cases hm
    · exact Or.inr ⟨m, n, rfl, rfl, h⟩
    · cases hm
  · rintro (⟨rfl, rfl, rfl⟩ | ⟨m, n, rfl, rfl, h⟩)
    · exact Or.inl ⟨rfl, rfl, 0, rfl, getElem?_places_eq_nil.2 rfl⟩
    · exact Or.inr (Or.inr (Or.inl ⟨m, n, rfl, rfl, h⟩))

/-- The nodes below two expressions and their common root. -/
theorem stepIn_join_places :
    StepIn (join l.places r.places) side i j ↔
      (i = 0 ∧ j = 1 ∧ side = .left) ∨ (i = 0 ∧ j = l.size + 1 ∧ side = .right) ∨
      (∃ m n, i = m + 1 ∧ j = n + 1 ∧ l.IsChild side m n) ∨
      ∃ m n, i = m + (l.size + 1) ∧ j = n + (l.size + 1) ∧ r.IsChild side m n := by
  rw [stepIn_join, length_places]
  simp only [getElem?_places_eq_nil]
  constructor
  · rintro (⟨rfl, rfl, m, rfl, rfl⟩ | ⟨rfl, rfl, m, rfl, rfl⟩ | h | h)
    · exact Or.inl ⟨rfl, rfl, rfl⟩
    · exact Or.inr (Or.inl ⟨rfl, Nat.zero_add _, rfl⟩)
    · exact Or.inr (Or.inr (Or.inl h))
    · exact Or.inr (Or.inr (Or.inr h))
  · rintro (⟨rfl, rfl, rfl⟩ | ⟨rfl, rfl, rfl⟩ | h | h)
    · exact Or.inl ⟨rfl, rfl, 0, rfl, rfl⟩
    · exact Or.inr (Or.inl ⟨rfl, rfl, 0, (Nat.zero_add _).symm, rfl⟩)
    · exact Or.inr (Or.inr (Or.inl h))
    · exact Or.inr (Or.inr (Or.inr h))

/-- A node is below another one in the expression that starts there. -/
theorem IsChild.below?_eq (h : e.IsChild side i j) :
    ∃ d c, e.preOrder[i]? = some d ∧ e.preOrder[j]? = some c ∧ d.below? side = some c := by
  obtain ⟨place, hi, hj⟩ := h
  obtain ⟨c, hc⟩ := Option.isSome_iff_exists.1 (mem_places_iff.1 (List.mem_of_getElem? hj))
  have hbelow := hc
  rw [at?_append, Option.bind_eq_some_iff] at hbelow
  obtain ⟨d, hd, hdc⟩ := hbelow
  refine ⟨d, c, ?_, ?_, hdc⟩
  · rw [preOrder_getElem?, hi, Option.bind_some, hd]
  · rw [preOrder_getElem?, hj, Option.bind_some, hc]

/-! ### The order of the places -/

/-- A place comes before those below it, and the places on the left of a node before those on its
right. -/
def Precedes : List Side → List Side → Prop := List.Lex fun s s' => s = .left ∧ s' = .right

theorem Precedes.asymm {p q : List Side} (h : Precedes p q) : ¬Precedes q p := by
  have : Std.Asymm fun s s' : Side => s = .left ∧ s' = .right := by
    constructor
    rintro _ _ ⟨rfl, rfl⟩ ⟨h, -⟩
    cases h
  exact (List.Lex.asymm _).asymm p q h

theorem pairwise_join {ls rs : List (List Side)} (hl : ls.Pairwise Precedes)
    (hr : rs.Pairwise Precedes) : (join ls rs).Pairwise Precedes := by
  refine List.pairwise_cons.2 ⟨fun p hp => ?_, List.pairwise_append.2 ⟨?_, ?_, ?_⟩⟩
  · rcases List.mem_append.1 hp with hp | hp
    · obtain ⟨q, -, rfl⟩ := List.mem_map.1 hp
      exact .nil
    · obtain ⟨q, -, rfl⟩ := List.mem_map.1 hp
      exact .nil
  · exact List.pairwise_map.2 (hl.imp .cons)
  · exact List.pairwise_map.2 (hr.imp .cons)
  · intro p hp q hq
    obtain ⟨p, -, rfl⟩ := List.mem_map.1 hp
    obtain ⟨q, -, rfl⟩ := List.mem_map.1 hq
    exact .rel ⟨rfl, rfl⟩

theorem pairwise_places (e : Regex) : e.places.Pairwise Precedes := by
  induction e with
  | operand o => exact pairwise_join .nil .nil
  | star e ih => exact pairwise_join ih .nil
  | concat l r ihl ihr | union l r ihl ihr => exact pairwise_join ihl ihr

theorem lt_of_precedes {p q : List Side} (hi : e.places[i]? = some p) (hj : e.places[j]? = some q)
    (h : Precedes p q) : i < j := by
  obtain ⟨hi', rfl⟩ := List.getElem?_eq_some_iff.1 hi
  obtain ⟨hj', rfl⟩ := List.getElem?_eq_some_iff.1 hj
  by_contra hle
  rcases Nat.lt_or_eq_of_le (Nat.not_lt.1 hle) with hlt | rfl
  · exact h.asymm (List.pairwise_iff_getElem.1 (pairwise_places e) j i hj' hi' hlt)
  · exact h.asymm h

theorem nodup_places (e : Regex) : e.places.Nodup :=
  (pairwise_places e).imp fun {p q} h heq => by
    rw [heq] at h
    exact h.asymm h

/-- What is below a node is visited once. -/
theorem existsUnique_isChild {d c : Regex} {side : Side} (hd : e.preOrder[i]? = some d)
    (hc : d.below? side = some c) : ∃! j, e.IsChild side i j ∧ e.preOrder[j]? = some c := by
  rw [preOrder_getElem?, Option.bind_eq_some_iff] at hd
  obtain ⟨place, hi, hat⟩ := hd
  have hstep : e.at? (place ++ [side]) = some c := by rw [at?_append, hat, Option.bind_some, hc]
  obtain ⟨j, hj⟩ := List.mem_iff_getElem?.1 (mem_places_iff.2 (Option.isSome_of_eq_some hstep))
  refine ⟨j, ⟨⟨place, hi, hj⟩, ?_⟩, ?_⟩
  · rw [preOrder_getElem?, hj, Option.bind_some, hstep]
  · rintro k ⟨⟨place', hi', hk⟩, -⟩
    obtain rfl : place = place' := Option.some.inj (hi.symm.trans hi')
    obtain ⟨hlt, -⟩ := List.getElem?_eq_some_iff.1 hk
    exact (List.getElem?_inj hlt (nodup_places e)).1 (hk.trans hj.symm)

/-- What is below on the left is visited before what is below on the right, and both after the
node that they are below. -/
theorem IsChild.left_lt_right (hl : e.IsChild .left i j) (hr : e.IsChild .right i k) :
    i < j ∧ j < k := by
  obtain ⟨p, hi, hj⟩ := hl
  obtain ⟨p', hi', hk⟩ := hr
  obtain rfl : p = p' := Option.some.inj (hi.symm.trans hi')
  have hbelow : Precedes p (p ++ [.left]) := by
    have happend : Precedes (p ++ []) (p ++ [.left]) := List.Lex.append_left _ .nil p
    rwa [List.append_nil] at happend
  have hsides : Precedes (p ++ [.left]) (p ++ [.right]) :=
    List.Lex.append_left _ (.rel ⟨rfl, rfl⟩) p
  exact ⟨lt_of_precedes hi hj hbelow, lt_of_precedes hj hk hsides⟩

end RegexAutomata.Regex
