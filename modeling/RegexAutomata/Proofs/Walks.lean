/-
Walks in a graph whose edges carry languages.

`walks E p q` is the language of all walks from `p` to `q`: of the texts that
are read along some sequence of edges, each edge contributing a text of its
language.  As a function of `p` it is the least solution of the inequalities
`1 ≤ B f` and `E p q * B q ≤ B p` (`walks_le`); a solution that is only one for
a set of states which no edge leaves will do for the states of this set
(`walks_le_on`).

* `walks_bypass` — a state may be taken out if its detours are put into the
  edges around it;
* `walks_two` — the walks between two states, where there are no others.
-/
import Mathlib

namespace RegexAutomata

open Computability

variable {σ α : Type} {E E' : σ → σ → Language α} {p q r f : σ}

/-- A walk along the edges of a graph, with the text that is read on the way. -/
inductive Walk (E : σ → σ → Language α) : σ → σ → List α → Prop
  | nil (p : σ) : Walk E p p []
  | cons {p q r : σ} {u v : List α} (h : u ∈ E p q) (w : Walk E q r v) :
      Walk E p r (u ++ v)

/-- The texts that are read on the walks from one state to another. -/
def walks (E : σ → σ → Language α) (p q : σ) : Language α := {w | Walk E p q w}

theorem one_le_walks (E : σ → σ → Language α) (p : σ) : 1 ≤ walks E p p := by
  intro w hw
  rw [(Language.mem_one w).1 hw]
  exact Walk.nil p

theorem edge_mul_walks_le (E : σ → σ → Language α) (p q r : σ) :
    E p q * walks E q r ≤ walks E p r := by
  rintro w ⟨u, hu, v, hv, rfl⟩
  exact Walk.cons hu hv

/-- The walks to a state are below every solution of the inequalities that hold
of them, on a set of states that no edge leaves. -/
theorem walks_le_on {S : Set σ} {B : σ → Language α} (hS : ∀ p ∈ S, ∀ q, q ∉ S → E p q = 0)
    (hf : f ∈ S → 1 ≤ B f) (hstep : ∀ p ∈ S, ∀ q ∈ S, E p q * B q ≤ B p) (hp : p ∈ S) :
    walks E p f ≤ B p := by
  intro w hw
  replace hw : Walk E p f w := hw
  -- on the walk, which never leaves the set
  induction hw with
  | nil p => exact hf hp rfl
  | @cons p q r u v hu _ ih =>
    by_cases hq : q ∈ S
    · exact hstep p hp q hq (Language.append_mem_mul hu (ih hf hq))
    · rw [hS p hp q hq] at hu
      exact absurd hu (Language.notMem_zero u)

theorem walks_le {B : σ → Language α} (hf : 1 ≤ B f) (hstep : ∀ p q, E p q * B q ≤ B p)
    (p : σ) : walks E p f ≤ B p :=
  walks_le_on (S := Set.univ) (fun _ _ q hq => absurd (Set.mem_univ q) hq) (fun _ => hf)
    (fun p _ q _ => hstep p q) (Set.mem_univ p)

theorem edge_le_walks (E : σ → σ → Language α) (p q : σ) : E p q ≤ walks E p q :=
  calc
    E p q = E p q * 1 := (mul_one _).symm
    _ ≤ E p q * walks E q q := mul_le_mul_right (one_le_walks E q) _
    _ ≤ walks E p q := edge_mul_walks_le E p q q

theorem walks_mul_walks_le (E : σ → σ → Language α) (p q r : σ) :
    walks E p q * walks E q r ≤ walks E p r := by
  rintro w ⟨u, hu, v, hv, rfl⟩
  replace hu : Walk E p q u := hu
  induction hu with
  | nil p => exact hv
  | cons h _ ih =>
    show _ ++ _ ∈ _
    rw [List.append_assoc]
    exact Walk.cons h (ih hv)

/-- Going round any number of times is a walk. -/
theorem kstar_le_walks {L : Language α} (h : L ≤ walks E p p) : L∗ ≤ walks E p p := by
  refine kstar_le_of_mul_le_left (one_le_walks E p) ?_
  calc
    walks E p p * L ≤ walks E p p * walks E p p := mul_le_mul_right h _
    _ ≤ walks E p p := walks_mul_walks_le E p p p

/-- More edges make more walks. -/
theorem walks_mono (h : ∀ p q, E p q ≤ E' p q) (p q : σ) : walks E p q ≤ walks E' p q := by
  refine walks_le (B := fun p => walks E' p q) (one_le_walks E' q) (fun p r => ?_) p
  calc
    E p r * walks E' r q ≤ E' p r * walks E' r q := mul_le_mul_left (h p r) _
    _ ≤ walks E' p q := edge_mul_walks_le E' p r q

/-- Walks from a state depend only on the edges of a set of states around it
that no edge leaves. -/
theorem walks_congr_on {S : Set σ} (hS : ∀ p ∈ S, ∀ q, q ∉ S → E p q = 0)
    (h : ∀ p ∈ S, ∀ q, E' p q = E p q) (hp : p ∈ S) (f : σ) : walks E' p f = walks E p f := by
  apply le_antisymm
  · refine walks_le_on (S := S) (B := fun p => walks E p f) (fun p hp q hq => ?_)
      (fun _ => one_le_walks E f) (fun p hp q _ => ?_) hp
    · rw [h p hp q, hS p hp q hq]
    · rw [h p hp q]
      exact edge_mul_walks_le E p q f
  · refine walks_le_on (S := S) (B := fun p => walks E' p f) hS (fun _ => one_le_walks E' f)
      (fun p hp q _ => ?_) hp
    rw [← h p hp q]
    exact edge_mul_walks_le E' p q f

/-! ### Taking a state out -/

/-- What can be read from `r` on when it is left for good. -/
def leaving (E E' : σ → σ → Language α) (r f : σ) : Language α :=
  {w | ∃ q, q ≠ r ∧ w ∈ E r q * walks E' q f}

/-- A state may be taken out of a graph if every edge around it is joined by
the detours through it. -/
theorem walks_bypass
    (hE' : ∀ p q, p ≠ r → q ≠ r → E' p q = E p q + E p r * (E r r)∗ * E r q)
    (h0 : ∀ p q, p = r ∨ q = r → E' p q = 0) (hp : p ≠ r) (hf : f ≠ r) :
    walks E' p f = walks E p f := by
  classical
  apply le_antisymm
  · -- a new edge is a walk of the old graph, directly or through `r`
    refine walks_le (B := fun p => walks E p f) (one_le_walks E f) (fun p q => ?_) p
    by_cases hpq : p = r ∨ q = r
    · rw [h0 p q hpq, zero_mul]
      exact zero_le
    · obtain ⟨hp, hq⟩ := not_or.1 hpq
      rw [hE' p q hp hq, add_mul, add_le_iff]
      refine ⟨edge_mul_walks_le E p q f, ?_⟩
      calc
        E p r * (E r r)∗ * E r q * walks E q f
            ≤ walks E p r * walks E r r * walks E r q * walks E q f := by
          gcongr
          · exact edge_le_walks E p r
          · exact kstar_le_walks (edge_le_walks E r r)
          · exact edge_le_walks E r q
        _ ≤ walks E p r * walks E r q * walks E q f := by
          gcongr
          exact walks_mul_walks_le E p r r
        _ ≤ walks E p q * walks E q f := by
          gcongr
          exact walks_mul_walks_le E p r q
        _ ≤ walks E p f := walks_mul_walks_le E p q f
  · -- from `r` one goes round, then leaves it for a state of the new graph
    have hB := walks_le (E := E) (f := f)
      (B := fun p => if p = r then (E r r)∗ * leaving E E' r f else walks E' p f) ?_ ?_ p
    · rwa [if_neg hp] at hB
    · show 1 ≤ ite _ _ _
      rw [if_neg hf]
      exact one_le_walks E' f
    · intro p q
      show E p q * ite _ _ _ ≤ ite _ _ _
      by_cases hp : p = r
      · rw [if_pos hp, hp]
        by_cases hq : q = r
        · -- once more round
          rw [if_pos hq, hq, ← mul_assoc]
          gcongr
          exact mul_kstar_le_kstar
        · -- on to a state of the new graph
          rw [if_neg hq]
          calc
            E r q * walks E' q f ≤ 1 * leaving E E' r f := by
              rw [one_mul]
              exact fun w hw => ⟨q, hq, hw⟩
            _ ≤ (E r r)∗ * leaving E E' r f := by
              gcongr
              exact one_le_kstar
      · rw [if_neg hp]
        by_cases hq : q = r
        · -- what goes on through `r` is a detour of the new graph
          rw [if_pos hq, hq, ← mul_assoc]
          rintro w ⟨u, hu, v, ⟨s, hs, hv⟩, rfl⟩
          have hdetour : E p r * (E r r)∗ * (E r s * walks E' s f) ≤ walks E' p f := by
            rw [← mul_assoc]
            refine le_trans ?_ (edge_mul_walks_le E' p s f)
            rw [hE' p s hp hs]
            gcongr
            exact le_add_of_nonneg_left zero_le
          exact hdetour (Language.append_mem_mul hu hv)
        · rw [if_neg hq]
          calc
            E p q * walks E' q f ≤ E' p q * walks E' q f := by
              rw [hE' p q hp hq]
              gcongr
              exact le_add_of_nonneg_right zero_le
            _ ≤ walks E' p f := edge_mul_walks_le E' p q f

/-! ### Two states -/

/-- What is read between two states: loops at the first, the way over, and at
the second loops and ways back and over again. -/
theorem walks_two {i : σ} (hif : i ≠ f) (hE : ∀ p q, q ≠ i → q ≠ f → E p q = 0) :
    walks E i f = (E i i)∗ * E i f * (E f f + E f i * (E i i)∗ * E i f)∗ := by
  classical
  set H := (E i i)∗ with hH
  set T := (E f f + E f i * H * E i f)∗ with hT
  apply le_antisymm
  · -- from `i` one goes round and over, and from `f` back and over any number of times
    have hB := walks_le_on (E := E) (f := f) (S := {i, f}) (p := i)
      (B := fun p => if p = i then H * E i f * T else T) ?_ ?_ ?_ (Or.inl rfl)
    · rwa [if_pos rfl] at hB
    · intro p _ q hq
      exact hE p q (fun h => hq (Or.inl h)) (fun h => hq (Or.inr h))
    · intro _
      show 1 ≤ ite _ _ _
      rw [if_neg hif.symm]
      exact one_le_kstar
    · have hloop : (E f f + E f i * H * E i f) * T ≤ T := mul_kstar_le_kstar
      rw [add_mul, add_le_iff] at hloop
      have hhead : H * E i f * T ≥ E i f * T := by
        gcongr
        calc
          E i f = 1 * E i f := (one_mul _).symm
          _ ≤ H * E i f := by
            gcongr
            exact one_le_kstar
      intro p hp q hq
      show E p q * ite _ _ _ ≤ ite _ _ _
      rcases hp with hp | hp <;> rcases hq with hq | hq <;> rw [hp, hq]
      · rw [if_pos rfl, ← mul_assoc, ← mul_assoc]
        gcongr
        exact mul_kstar_le_kstar
      · rw [if_pos rfl, if_neg hif.symm]
        exact hhead
      · rw [if_pos rfl, if_neg hif.symm, ← mul_assoc, ← mul_assoc]
        exact hloop.2
      · rw [if_neg hif.symm]
        exact hloop.1
  · have hhead : H ≤ walks E i i := kstar_le_walks (edge_le_walks E i i)
    have hover : H * E i f ≤ walks E i f := by
      calc
        H * E i f ≤ walks E i i * walks E i f := by
          gcongr
          exact edge_le_walks E i f
        _ ≤ walks E i f := walks_mul_walks_le E i i f
    have hback : E f i * H * E i f ≤ walks E f f := by
      rw [mul_assoc]
      calc
        E f i * (H * E i f) ≤ walks E f i * walks E i f := by
          gcongr
          exact edge_le_walks E f i
        _ ≤ walks E f f := walks_mul_walks_le E f i f
    calc
      H * E i f * T ≤ walks E i f * walks E f f := by
        gcongr
        exact kstar_le_walks (add_le (edge_le_walks E f f) hback)
      _ ≤ walks E i f := walks_mul_walks_le E i f f

end RegexAutomata
