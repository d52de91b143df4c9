/-
A two-way map that is kept as a map in either direction.

Whether a right value may be had is asked of the backward map alone, and which one is released is
asked of the forward map (`Directions.rebind`); so all depends on the two being inverse to each
other, which they are from the beginning on (`Directions.agree_empty`) and stay whatever is asked
for (`Directions.Agree.rebind`).
-/
import Mathlib.Logic.Function.Basic

namespace RegexAutomata

/-- A map in either direction. -/
structure Directions (α β : Type) where
  /-- The right value of a left value. -/
  forward : α → Option β
  /-- The left value of a right value. -/
  backward : β → Option α

namespace Directions

variable {α β : Type} {d : Directions α β} {a x : α} {b y : β}

/-- The map without pairs. -/
def empty : Directions α β := ⟨fun _ => none, fun _ => none⟩

/-- Each map undoes the other. -/
def Agree (d : Directions α β) : Prop := ∀ a b, d.forward a = some b ↔ d.backward b = some a

theorem agree_empty : (empty : Directions α β).Agree := fun _ _ => ⟨nofun, nofun⟩

variable [DecidableEq β]

/-- Take a right value, if there is one, out of the backward map. -/
def release (backward : β → Option α) : Option β → β → Option α
  | some old => Function.update backward old none
  | none => backward

theorem release_apply (backward : β → Option α) (former : Option β) (y : β) :
    release backward former y = if former = some y then none else backward y := by
  cases former with
  | none => rfl
  | some old => simp only [release, Function.update_apply, Option.some.injEq, eq_comm]

variable [DecidableEq α]

/-- Enter a pair, and take the former right value of its left value out of the backward map. -/
def insert (d : Directions α β) (a : α) (b : β) : Directions α β where
  forward := Function.update d.forward a (some b)
  backward := Function.update (release d.backward (d.forward a)) b (some a)

/-- Point a left value at a right value.  The answer says whether something has changed, or
whose the right value is. -/
def rebind (d : Directions α β) (a : α) (b : β) : Except α Bool × Directions α β :=
  match d.backward b with
  | some owner => if owner = a then (.ok false, d) else (.error owner, d)
  | none => (.ok true, d.insert a b)

theorem forward_insert (d : Directions α β) (a x : α) (b : β) :
    (d.insert a b).forward x = if x = a then some b else d.forward x :=
  Function.update_apply d.forward a (some b) x

theorem backward_insert (d : Directions α β) (a : α) (b y : β) :
    (d.insert a b).backward y =
      if y = b then some a else if d.forward a = some y then none else d.backward y := by
  rw [← release_apply]
  exact Function.update_apply (release d.backward (d.forward a)) b (some a) y

/-- Nobody has the right value: it goes to its new owner, and the former one is free. -/
theorem Agree.insert (h : d.Agree) (hfree : d.backward b = none) : (d.insert a b).Agree := by
  intro x y
  rw [forward_insert, backward_insert]
  by_cases hx : x = a
  · subst hx
    rw [if_pos rfl]
    by_cases hy : y = b
    · subst hy
      simp
    · rw [if_neg hy]
      refine ⟨fun heq => absurd (Option.some.inj heq).symm hy, fun heq => ?_⟩
      -- what `x` had before is not found under `x` any more
      by_cases hold : d.forward x = some y
      · rw [if_pos hold] at heq
        cases heq
      · rw [if_neg hold] at heq
        exact absurd ((h x y).2 heq) hold
  · rw [if_neg hx]
    by_cases hy : y = b
    · subst hy
      rw [if_pos rfl, h x y, hfree]
      exact ⟨nofun, fun heq => absurd (Option.some.inj heq).symm hx⟩
    · rw [if_neg hy]
      by_cases hold : d.forward a = some y
      · rw [if_pos hold, h x y, (h a y).1 hold]
        exact ⟨fun heq => absurd (Option.some.inj heq).symm hx, nofun⟩
      · rw [if_neg hold]
        exact h x y

theorem Agree.rebind (h : d.Agree) (a : α) (b : β) : (d.rebind a b).2.Agree := by
  rw [Directions.rebind]
  split
  · split
    · exact h
    · exact h
  · rename_i hfree
    exact h.insert hfree

end Directions

end RegexAutomata
