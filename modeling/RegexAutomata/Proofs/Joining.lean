/-
Walks in graphs that are put together from parts.

`joined E ends` has the edges of `E` and, between some pairs of states, edges
that read nothing.  With such edges a part of a graph is put between two states
of which `E` knows nothing:

* `walks_alone` — a single edge;
* `walks_star` — one part, that may be passed any number of times;
* `walks_union` — two parts side by side.

* `walks_fused` — for two parts one behind the other, the exit of the first
  takes over the edges of the entry of the second.
-/
import RegexAutomata.Proofs.Walks

namespace RegexAutomata

open Computability

variable {σ α : Type} [DecidableEq σ] {E : σ → σ → Language α} {ends : List (σ × σ)}
  {p q r i f : σ}

/-- Edges that read nothing, beside those of a graph. -/
def joined (E : σ → σ → Language α) (ends : List (σ × σ)) (p q : σ) : Language α :=
  E p q + if (p, q) ∈ ends then 1 else 0

/-- No edge leaves or enters a state. -/
def Isolated (E : σ → σ → Language α) (p : σ) : Prop := ∀ q, E p q = 0 ∧ E q p = 0

theorem walks_joined_le {B : σ → Language α} (ends : List (σ × σ)) (hf : 1 ≤ B f)
    (hE : ∀ p q, E p q * B q ≤ B p) (hends : ∀ e ∈ ends, B e.2 ≤ B e.1) (p : σ) :
    walks (joined E ends) p f ≤ B p := by
  refine walks_le hf (fun p q => ?_) p
  rw [joined, add_mul, add_le_iff]
  refine ⟨hE p q, ?_⟩
  split
  · rename_i h
    rw [one_mul]
    exact hends (p, q) h
  · rw [zero_mul]
    exact zero_le

theorem le_walks_joined (E : σ → σ → Language α) (ends : List (σ × σ)) (p q : σ) :
    walks E p q ≤ walks (joined E ends) p q :=
  walks_mono (fun _ _ => le_add_of_nonneg_right zero_le) p q

theorem walks_joined_step (h : (p, q) ∈ ends) (r : σ) :
    walks (joined E ends) q r ≤ walks (joined E ends) p r := by
  refine le_trans ?_ (edge_mul_walks_le (joined E ends) p q r)
  have hedge : 1 ≤ joined E ends p q := by
    rw [joined, if_pos h]
    exact le_add_of_nonneg_left zero_le
  calc
    walks (joined E ends) q r = 1 * walks (joined E ends) q r := (one_mul _).symm
    _ ≤ joined E ends p q * walks (joined E ends) q r := by gcongr

/-- At isolated states there is nothing to be shown of a solution. -/
theorem edge_mul_le_of_isolated {B : σ → Language α} (hi : Isolated E i) (hf : Isolated E f)
    (h : ∀ p q, p ≠ i ∧ p ≠ f → q ≠ i ∧ q ≠ f → E p q * B q ≤ B p) (p q : σ) :
    E p q * B q ≤ B p := by
  by_cases hp : p = i ∨ p = f
  · have h0 : E p q = 0 := by
      rcases hp with rfl | rfl
      · exact (hi q).1
      · exact (hf q).1
    rw [h0, zero_mul]
    exact zero_le
  · by_cases hq : q = i ∨ q = f
    · have h0 : E p q = 0 := by
        rcases hq with rfl | rfl
        · exact (hi p).2
        · exact (hf p).2
      rw [h0, zero_mul]
      exact zero_le
    · exact h p q (not_or.1 hp) (not_or.1 hq)

/-- One edge between two states that are isolated otherwise. -/
theorem walks_alone {E' : σ → σ → Language α} {L : Language α} (hi : Isolated E i)
    (hf : Isolated E f) (hif : i ≠ f)
    (hE' : ∀ p q, E' p q = if p = i ∧ q = f then L else E p q) : walks E' i f = L := by
  have h0 : ∀ p q, p ∈ ({i, f} : Set σ) → ¬(p = i ∧ q = f) → E' p q = 0 := by
    intro p q hp hpq
    rw [hE', if_neg hpq]
    rcases hp with rfl | rfl
    · exact (hi q).1
    · exact (hf q).1
  have hedge : E' i f = L := by rw [hE', if_pos ⟨rfl, rfl⟩]
  apply le_antisymm
  · -- nothing leaves the two states but the edge between them
    have hB := walks_le_on (E := E') (f := f) (S := {i, f}) (p := i)
      (B := fun x => if x = f then 1 else L) ?_ ?_ ?_ (Or.inl rfl)
    · rwa [if_neg hif] at hB
    · intro p hp q hq
      exact h0 p q hp fun hpq => hq (Or.inr hpq.2)
    · intro _
      show 1 ≤ ite _ _ _
      rw [if_pos rfl]
    · intro p hp q _
      show E' p q * ite _ _ _ ≤ ite _ _ _
      by_cases hpq : p = i ∧ q = f
      · rw [hpq.1, hpq.2, if_pos rfl, if_neg hif, hedge, mul_one]
      · rw [h0 p q hp hpq, zero_mul]
        exact zero_le
  · rw [← hedge]
    exact edge_le_walks E' i f

/-- A part of a graph that may be passed any number of times. -/
theorem walks_star {entry exit : σ} (hi : Isolated E i) (hf : Isolated E f) (hif : i ≠ f)
    (hentry : entry ≠ i ∧ entry ≠ f) (hexit : exit ≠ i ∧ exit ≠ f) :
    walks (joined E [(i, entry), (exit, f), (exit, entry), (i, f)]) i f =
      (walks E entry exit)∗ := by
  set L := walks E entry exit with hL
  apply le_antisymm
  · -- inside the part one goes on to its exit, and then round again
    have hB := walks_joined_le (E := E) (f := f)
      (B := fun x => if x = f then 1 else if x = i then L∗ else walks E x exit * L∗)
      [(i, entry), (exit, f), (exit, entry), (i, f)] ?_ ?_ ?_ i
    · rwa [if_neg hif, if_pos rfl] at hB
    · show 1 ≤ ite _ _ _
      rw [if_pos rfl]
    · refine edge_mul_le_of_isolated hi hf fun p q hp hq => ?_
      rw [if_neg hp.2, if_neg hp.1, if_neg hq.2, if_neg hq.1, ← mul_assoc]
      gcongr
      exact edge_mul_walks_le E p q exit
    · have hloop : L * L∗ ≤ L∗ := mul_kstar_le_kstar
      have hback : L∗ ≤ walks E exit exit * L∗ := by
        calc
          L∗ = 1 * L∗ := (one_mul _).symm
          _ ≤ walks E exit exit * L∗ := by
            gcongr
            exact one_le_walks E exit
      simp only [List.forall_mem_cons, if_neg hentry.1, if_neg hentry.2, if_neg hexit.1,
        if_neg hexit.2, if_neg hif, if_true]
      refine ⟨hloop, le_trans one_le_kstar hback, le_trans hloop hback, one_le_kstar, ?_⟩
      intro e he
      cases he
  · set E' := joined E [(i, entry), (exit, f), (exit, entry), (i, f)] with hE'
    have hround : L ≤ walks E' exit exit :=
      le_trans (le_walks_joined E _ entry exit) (walks_joined_step (by simp) exit)
    rw [← one_add_mul_kstar, add_le_iff]
    -- past the part, or through it once and then round any number of times
    constructor
    · exact le_trans (one_le_walks E' f) (walks_joined_step (by simp) f)
    · calc
        L * L∗ ≤ walks E' entry exit * walks E' exit exit := by
          gcongr
          · exact le_walks_joined E _ entry exit
          · exact kstar_le_walks hround
        _ ≤ walks E' entry exit := walks_mul_walks_le E' entry exit exit
        _ = walks E' entry exit * 1 := (mul_one _).symm
        _ ≤ walks E' entry exit * walks E' exit f := by
          gcongr
          exact le_trans (one_le_walks E' f) (walks_joined_step (by simp) f)
        _ ≤ walks E' entry f := walks_mul_walks_le E' entry exit f
        _ ≤ walks E' i f := walks_joined_step (by simp) f

/-- Two parts of a graph side by side. -/
theorem walks_union {entry exit entry' exit' : σ} (hi : Isolated E i) (hf : Isolated E f)
    (hif : i ≠ f) (hentry : entry ≠ i ∧ entry ≠ f) (hentry' : entry' ≠ i ∧ entry' ≠ f)
    (hexit : exit ≠ i ∧ exit ≠ f) (hexit' : exit' ≠ i ∧ exit' ≠ f)
    (hcross : walks E entry exit' = 0) (hcross' : walks E entry' exit = 0) :
    walks (joined E [(i, entry), (i, entry'), (exit, f), (exit', f)]) i f =
      walks E entry exit + walks E entry' exit' := by
  apply le_antisymm
  · -- no walk leads from one part into the other, so only one of the sums counts
    have hB := walks_joined_le (E := E) (f := f)
      (B := fun x => if x = f then 1 else
        if x = i then walks E entry exit + walks E entry' exit'
        else walks E x exit + walks E x exit')
      [(i, entry), (i, entry'), (exit, f), (exit', f)] ?_ ?_ ?_ i
    · rwa [if_neg hif, if_pos rfl] at hB
    · show 1 ≤ ite _ _ _
      rw [if_pos rfl]
    · refine edge_mul_le_of_isolated hi hf fun p q hp hq => ?_
      rw [if_neg hp.2, if_neg hp.1, if_neg hq.2, if_neg hq.1, mul_add]
      gcongr
      · exact edge_mul_walks_le E p q exit
      · exact edge_mul_walks_le E p q exit'
    · simp only [List.forall_mem_cons, if_neg hentry.1, if_neg hentry.2, if_neg hexit.1,
        if_neg hexit.2, if_neg hentry'.1, if_neg hentry'.2, if_neg hexit'.1, if_neg hexit'.2,
        if_neg hif, if_true, hcross, hcross', add_zero, zero_add]
      refine ⟨le_add_of_nonneg_right zero_le, le_add_of_nonneg_left zero_le, ?_, ?_, ?_⟩
      · exact le_trans (one_le_walks E exit) (le_add_of_nonneg_right zero_le)
      · exact le_trans (one_le_walks E exit') (le_add_of_nonneg_left zero_le)
      · intro e he
        cases he
  · set E' := joined E [(i, entry), (i, entry'), (exit, f), (exit', f)] with hE'
    -- a way through one of the parts
    have through : ∀ en ex, (i, en) ∈ [(i, entry), (i, entry'), (exit, f), (exit', f)] →
        (ex, f) ∈ [(i, entry), (i, entry'), (exit, f), (exit', f)] →
        walks E en ex ≤ walks E' i f := fun en ex hen hex => by
      calc
        walks E en ex = walks E en ex * 1 := (mul_one _).symm
        _ ≤ walks E' en ex * walks E' ex f := by
          gcongr
          · exact le_walks_joined E _ en ex
          · exact le_trans (one_le_walks E' f) (walks_joined_step hex f)
        _ ≤ walks E' en f := walks_mul_walks_le E' en ex f
        _ ≤ walks E' i f := walks_joined_step hen f
    exact add_le (through entry exit (by simp) (by simp))
      (through entry' exit' (by simp) (by simp))

/-- A graph in which a state has taken over the edges of another one, which is
gone. -/
def fused (E : σ → σ → Language α) (keep absorb p q : σ) : Language α :=
  if p = absorb ∨ q = absorb then 0 else if p = keep then E absorb q else E p q

/-- Two parts of a graph one behind the other. -/
theorem walks_fused {entry keep absorb exit : σ} (hleave : ∀ q, E keep q = 0)
    (henter : ∀ p, E p absorb = 0) (hentry : entry ≠ absorb) (hkeep : keep ≠ absorb)
    (hexit : exit ≠ absorb) (hskip : walks E entry exit = 0) (hback : walks E absorb keep = 0) :
    walks (fused E keep absorb) entry exit = walks E entry keep * walks E absorb exit := by
  set L := walks E absorb exit with hL
  apply le_antisymm
  · -- before the kept state the second part is still to come, behind it only the rest
    have hB := walks_le (E := fused E keep absorb) (f := exit)
      (B := fun x => walks E x keep * L + walks E x exit) ?_ ?_ entry
    · rwa [hskip, add_zero] at hB
    · exact le_trans (one_le_walks E exit) (le_add_of_nonneg_left zero_le)
    · intro p q
      show fused E keep absorb p q * (walks E q keep * L + walks E q exit) ≤
        walks E p keep * L + walks E p exit
      rw [fused]
      split
      · rw [zero_mul]
        exact zero_le
      · split
        · -- what was read from the absorbed state on
          rename_i hp
          rw [hp, mul_add, ← mul_assoc]
          have hturn : E absorb q * walks E q keep = 0 := by
            refine le_antisymm ?_ zero_le
            rw [← hback]
            exact edge_mul_walks_le E absorb q keep
          rw [hturn, zero_mul, zero_add]
          calc
            E absorb q * walks E q exit ≤ 1 * L := by
              rw [one_mul]
              exact edge_mul_walks_le E absorb q exit
            _ ≤ walks E keep keep * L := by
              gcongr
              exact one_le_walks E keep
            _ ≤ walks E keep keep * L + walks E keep exit := le_add_of_nonneg_right zero_le
        · rw [mul_add, ← mul_assoc]
          gcongr
          · exact edge_mul_walks_le E p q keep
          · exact edge_mul_walks_le E p q exit
  · -- every walk goes on with the kept state in place of the absorbed one
    have hmap : ∀ p f, f ≠ absorb → walks E p f ≤
        walks (fused E keep absorb) (if p = absorb then keep else p) f := by
      intro p f hf
      refine walks_le
        (B := fun p => walks (fused E keep absorb) (if p = absorb then keep else p) f) ?_ ?_ p
      · show 1 ≤ walks _ (ite _ _ _) f
        rw [if_neg hf]
        exact one_le_walks _ f
      · intro p q
        show E p q * walks _ (ite _ _ _) f ≤ walks _ (ite _ _ _) f
        by_cases hq : q = absorb
        · rw [hq, henter, zero_mul]
          exact zero_le
        · by_cases hp : p = keep
          · rw [hp, hleave, zero_mul]
            exact zero_le
          · have hedge : E p q = fused E keep absorb (if p = absorb then keep else p) q := by
              by_cases hpa : p = absorb
              · rw [if_pos hpa, fused, if_neg (not_or.2 ⟨hkeep, hq⟩), if_pos rfl, hpa]
              · rw [if_neg hpa, fused, if_neg (not_or.2 ⟨hpa, hq⟩), if_neg hp]
            rw [if_neg hq, hedge]
            exact edge_mul_walks_le _ _ q f
    have hfirst := hmap entry keep hkeep
    have hsecond := hmap absorb exit hexit
    rw [if_neg hentry] at hfirst
    rw [if_pos rfl] at hsecond
    calc
      walks E entry keep * L
          ≤ walks (fused E keep absorb) entry keep * walks (fused E keep absorb) keep exit := by
        gcongr
      _ ≤ walks (fused E keep absorb) entry exit := walks_mul_walks_le _ entry keep exit

end RegexAutomata
