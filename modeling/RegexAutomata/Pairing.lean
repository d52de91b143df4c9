/-
A two-way map: every left value is paired with at most one right value and
every right value with at most one left value.

* `Pairing.image` and `Pairing.preimage` look a pair up from either side;
* `Pairing.rebind` points a left value at a right value, unless the right
  value belongs to another left value, who then keeps it.

The pairs are kept in the order in which their left values first came; a left
value that is pointed elsewhere keeps its place.
-/
import RegexAutomata.InsertionOrder

namespace RegexAutomata

/-- A list of pairs in which no left value and no right value occurs twice. -/
structure Pairing (α β : Type) where
  /-- The pairs, in the order in which their left values first came. -/
  pairs : List (α × β)
  /-- No left value occurs twice. -/
  lefts_nodup : (pairs.map Prod.fst).Nodup
  /-- No right value occurs twice. -/
  rights_nodup : (pairs.map Prod.snd).Nodup
  deriving DecidableEq

/-- The answer to the wish to point a left value at a right value. -/
inductive Rebinding (α β : Type) where
  /-- The two are paired already. -/
  | unchanged
  /-- The two are paired now, in the map given. -/
  | changed (pairing : Pairing α β)
  /-- The right value belongs to another left value. -/
  | refused (owner : α)

namespace Pairing

variable {α β : Type}

/-- The map without pairs. -/
def empty : Pairing α β := ⟨[], List.nodup_nil, List.nodup_nil⟩

/-- The left values, in order. -/
def lefts (m : Pairing α β) : List α := m.pairs.map Prod.fst

/-- The right values, in the order of their left values. -/
def rights (m : Pairing α β) : List β := m.pairs.map Prod.snd

/-- The right value paired with a left value. -/
def image [DecidableEq α] (m : Pairing α β) (a : α) : Option β :=
  (m.pairs.find? fun p => p.1 = a).map Prod.snd

/-- The left value paired with a right value. -/
def preimage [DecidableEq β] (m : Pairing α β) (b : β) : Option α :=
  (m.pairs.find? fun p => p.2 = b).map Prod.fst

theorem image_isSome_iff [DecidableEq α] {m : Pairing α β} {a : α} :
    (m.image a).isSome ↔ a ∈ m.lefts := by
  simp [image, lefts, List.find?_isSome]

theorem preimage_eq_none_iff [DecidableEq β] {m : Pairing α β} {b : β} :
    m.preimage b = none ↔ b ∉ m.rights := by
  simp only [preimage, rights, Option.map_eq_none_iff, List.find?_eq_none, List.mem_map,
    decide_eq_true_eq]
  exact ⟨fun h ⟨q, hq, e⟩ => h q hq e, fun h q hq e => h ⟨q, hq, e⟩⟩

/-! ### Pointing a left value elsewhere -/

section Put

variable [DecidableEq α]

/-- Pair `a` with `b` in place of its former partner, or at the end. -/
def putPair (a : α) (b : β) (ps : List (α × β)) : List (α × β) :=
  InsertionOrder.alter a (fun _ => b) ps

theorem mem_putPair {a : α} {b : β} {ps : List (α × β)} {q : α × β}
    (h : q ∈ putPair a b ps) : q = (a, b) ∨ q ∈ ps :=
  (InsertionOrder.mem_alter h).imp_left fun ⟨_, e⟩ => e

theorem map_snd_putPair_nodup {a : α} {b : β} {ps : List (α × β)}
    (hb : b ∉ ps.map Prod.snd) (h : (ps.map Prod.snd).Nodup) :
    ((putPair a b ps).map Prod.snd).Nodup := by
  induction ps with
  | nil => simp [putPair, InsertionOrder.alter]
  | cons p ps ih =>
    simp only [List.map_cons, List.mem_cons, not_or, List.nodup_cons] at hb h
    by_cases hp : p.1 = a
    · simp only [putPair, InsertionOrder.alter, hp, if_true, List.map_cons, List.nodup_cons]
      exact ⟨hb.2, h.2⟩
    · simp only [putPair, InsertionOrder.alter, hp, if_false, List.map_cons, List.nodup_cons]
      refine ⟨fun hmem => ?_, ih hb.2 h.2⟩
      obtain ⟨q, hq, hqp⟩ := List.mem_map.1 hmem
      rcases mem_putPair hq with rfl | hq
      · exact hb.1 hqp
      · exact h.1 (List.mem_map.2 ⟨q, hq, hqp⟩)

/-- Point `a` at `b` where `b` is free. -/
def put (m : Pairing α β) (a : α) (b : β) (free : b ∉ m.rights) : Pairing α β where
  pairs := putPair a b m.pairs
  lefts_nodup := InsertionOrder.nodup_map_fst_alter m.lefts_nodup
  rights_nodup := map_snd_putPair_nodup free m.rights_nodup

/-- A left value that has a partner keeps its place. -/
theorem lefts_put {m : Pairing α β} {a : α} {b : β} {free : b ∉ m.rights} (h : a ∈ m.lefts) :
    (m.put a b free).lefts = m.lefts := by
  simp only [lefts, put, putPair, InsertionOrder.map_fst_alter]
  exact if_pos h

/-- The only right value that can be new is the one put in. -/
theorem mem_rights_put {m : Pairing α β} {a : α} {b : β} {free : b ∉ m.rights} {c : β}
    (h : c ∈ (m.put a b free).rights) : c = b ∨ c ∈ m.rights := by
  obtain ⟨q, hq, rfl⟩ := List.mem_map.1 h
  rcases mem_putPair hq with rfl | hq
  · exact Or.inl rfl
  · exact Or.inr (List.mem_map.2 ⟨q, hq, rfl⟩)

end Put

/-- Point `a` at `b`, releasing what `a` pointed at before.  A right value
that belongs to another left value stays with it. -/
def rebind [DecidableEq α] [DecidableEq β] (m : Pairing α β) (a : α) (b : β) :
    Rebinding α β :=
  match h : m.preimage b with
  | some owner => if owner = a then .unchanged else .refused owner
  | none => .changed (m.put a b (preimage_eq_none_iff.1 h))

end Pairing

end RegexAutomata
