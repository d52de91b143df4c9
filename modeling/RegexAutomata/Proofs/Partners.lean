/-
Brackets that belong together.

Two positions are `Partners` in a text if an opening bracket stands at the first of them, a closing
one at the second, and what stands between them is balanced.

* `Balanced.existsUnique_partners` — in a balanced text every bracket belongs to one pair;
* `mem_bracketPairs_iff` — the pairs that are listed are the partners, and `pairwise_bracketPairs`
  — they come in the order in which they are closed, so none is listed twice and none before one
  that it encloses (`lt_of_encloses`);
* `bracketPairs_erasePair` — without one pair the others are the pairs that are left, at the places
  to which they move up (`posWithout`).
-/
import Mathlib.Logic.ExistsUnique
import RegexAutomata.Proofs.Brackets

namespace RegexAutomata.Text

variable {cs xs ys zs : List Char} {p q : Nat × Nat} {i j k pos : Nat} {opened : List Nat}

/-! ### How balanced texts come about -/

theorem Balanced.brackets (hys : Balanced ys) (hzs : Balanced zs) :
    Balanced ('(' :: (ys ++ ')' :: zs)) := by
  have := hys.wrap.append hzs
  rwa [List.cons_append, List.append_assoc] at this

/-- A balanced text is empty, or it begins with another character than a bracket, or with a bracket
and its partner around a balanced text. -/
@[elab_as_elim]
theorem Balanced.induction {motive : (cs : List Char) → Balanced cs → Prop}
    (nil : motive [] rfl)
    (plain : ∀ c cs (ho : c ≠ '(') (hc : c ≠ ')') (h : Balanced cs), motive cs h →
      motive (c :: cs) (h.cons ho hc))
    (brackets : ∀ ys zs (hys : Balanced ys) (hzs : Balanced zs), motive ys hys → motive zs hzs →
      motive ('(' :: (ys ++ ')' :: zs)) (hys.brackets hzs))
    {cs : List Char} (h : Balanced cs) : motive cs h := by
  obtain ⟨n, hn⟩ : ∃ n, cs.length < n := ⟨_, Nat.lt_succ_self _⟩
  induction n generalizing cs with
  | zero => exact absurd hn (Nat.not_lt_zero _)
  | succ n ih =>
    rcases cs with _ | ⟨c, cs⟩
    · exact nil
    · rw [List.length_cons] at hn
      by_cases ho : c = '('
      · subst ho
        obtain ⟨ys, zs, rfl, hys, hzs⟩ := h.exists_of_open
        rw [List.length_append, List.length_cons] at hn
        exact brackets ys zs hys hzs (ih hys (by omega)) (ih hzs (by omega))
      · have hcs : Balanced cs := (balanced_singleton ho h.ne_close).of_append h
        exact plain c cs ho h.ne_close hcs (ih hcs (by omega))

/-- What stands around a pair of brackets and between them is balanced without the two. -/
theorem Balanced.of_brackets (hys : Balanced ys) (h : Balanced (xs ++ '(' :: (ys ++ ')' :: zs))) :
    Balanced (xs ++ (ys ++ zs)) := by
  rw [Balanced, depthAfter_append, Option.bind_eq_some_iff] at h ⊢
  obtain ⟨d, hd, h⟩ := h
  rw [depthAfter_open, depthAfter_append, hys.depthAfter_eq, Option.bind_some,
    depthAfter_close] at h
  refine ⟨d, hd, ?_⟩
  rw [depthAfter_append, hys.depthAfter_eq, Option.bind_some]
  exact h

/-! ### Partners -/

/-- The brackets at the two positions belong together: what stands between them is balanced. -/
def Partners (cs : List Char) (p : Nat × Nat) : Prop :=
  ∃ xs ys zs, cs = xs ++ '(' :: (ys ++ ')' :: zs) ∧ Balanced ys ∧
    p = (xs.length, xs.length + 1 + ys.length)

/-- Partners stay partners when text is put around theirs. -/
theorem Partners.append (h : Partners cs (i, j)) (as bs : List Char) :
    Partners (as ++ (cs ++ bs)) (as.length + i, as.length + j) := by
  obtain ⟨xs, ys, zs, rfl, hys, heq⟩ := h
  obtain ⟨rfl, rfl⟩ := Prod.mk.inj heq
  refine ⟨as ++ xs, ys, zs ++ bs, by simp, hys, ?_⟩
  rw [List.length_append, Nat.add_assoc, Nat.add_assoc, Nat.add_assoc]

theorem Partners.cons (h : Partners cs (i, j)) (c : Char) :
    Partners (c :: cs) (i + 1, j + 1) := by
  have := h.append [c] []
  rwa [List.append_nil, List.length_singleton, Nat.add_comm 1 i, Nat.add_comm 1 j] at this

/-- A pair in what a first pair encloses. -/
theorem Partners.between (h : Partners ys (i, j)) (zs : List Char) :
    Partners ('(' :: (ys ++ ')' :: zs)) (i + 1, j + 1) := by
  have := h.append ['('] (')' :: zs)
  rwa [List.length_singleton, Nat.add_comm 1 i, Nat.add_comm 1 j] at this

/-- A pair behind a first pair. -/
theorem Partners.behind (h : Partners zs (i, j)) (ys : List Char) :
    Partners ('(' :: (ys ++ ')' :: zs)) (ys.length + 2 + i, ys.length + 2 + j) := by
  have := h.append ('(' :: (ys ++ [')'])) []
  rwa [List.append_nil, List.cons_append, List.append_assoc, List.length_cons,
    List.length_append] at this

theorem partners_head (hys : Balanced ys) (zs : List Char) :
    Partners ('(' :: (ys ++ ')' :: zs)) (0, ys.length + 1) :=
  ⟨[], ys, zs, rfl, hys, by rw [List.length_nil, Nat.zero_add, Nat.add_comm]⟩

theorem Partners.lt (h : Partners cs p) : p.1 < p.2 := by
  obtain ⟨xs, ys, zs, -, -, rfl⟩ := h
  exact Nat.lt_of_lt_of_le (Nat.lt_succ_self _) (Nat.le_add_right _ _)

theorem Partners.getElem?_fst (h : Partners cs p) : cs[p.1]? = some '(' := by
  obtain ⟨xs, ys, zs, rfl, -, rfl⟩ := h
  rw [List.getElem?_append_right (Nat.le_refl _), Nat.sub_self, List.getElem?_cons_zero]

theorem Partners.getElem?_snd (h : Partners cs p) : cs[p.2]? = some ')' := by
  obtain ⟨xs, ys, zs, rfl, -, rfl⟩ := h
  rw [List.getElem?_append_right (by omega), Nat.add_assoc, Nat.add_sub_cancel_left, Nat.add_comm 1,
    List.getElem?_cons_succ, List.getElem?_append_right (Nat.le_refl _), Nat.sub_self,
    List.getElem?_cons_zero]

/-- In a balanced text no bracket lacks a partner. -/
theorem Balanced.exists_partners (h : Balanced cs) (hi : cs[i]? = some '(' ∨ cs[i]? = some ')') :
    ∃ p, Partners cs p ∧ (p.1 = i ∨ p.2 = i) := by
  induction h using Balanced.induction generalizing i with
  | nil => simp at hi
  | plain c cs ho hc h ih =>
    rcases i with _ | i
    · simp [ho, hc] at hi
    · obtain ⟨⟨a, b⟩, hp, hpi⟩ := ih hi
      exact ⟨_, hp.cons c, hpi.imp (congrArg (· + 1)) (congrArg (· + 1))⟩
  | brackets ys zs hys hzs ihy ihz =>
    rcases i with _ | i
    · exact ⟨_, partners_head hys zs, Or.inl rfl⟩
    · rw [List.getElem?_cons_succ] at hi
      rcases Nat.lt_trichotomy i ys.length with hlt | rfl | hlt
      · rw [List.getElem?_append_left hlt] at hi
        obtain ⟨⟨a, b⟩, hp, hpi⟩ := ihy hi
        exact ⟨_, hp.between zs, hpi.imp (congrArg (· + 1)) (congrArg (· + 1))⟩
      · exact ⟨_, partners_head hys zs, Or.inr rfl⟩
      · obtain ⟨k, rfl⟩ := Nat.exists_eq_add_of_lt hlt
        rw [List.getElem?_append_right (by omega), Nat.add_assoc, Nat.add_sub_cancel_left,
          List.getElem?_cons_succ] at hi
        obtain ⟨⟨a, b⟩, hp, hpi⟩ := ihz hi
        refine ⟨_, hp.behind ys, ?_⟩
        simp only at hpi ⊢
        omega

/-- A balanced beginning of a balanced text is not followed by a closing bracket. -/
theorem Balanced.not_append_close (hxs : Balanced xs) : ¬Balanced (xs ++ ')' :: ys) :=
  fun h => (hxs.of_append h).ne_close rfl

/-- An opening bracket has one partner. -/
theorem Partners.eq_of_fst (hp : Partners cs p) (hq : Partners cs q) (h : p.1 = q.1) : p = q := by
  obtain ⟨xs, ys, zs, rfl, hys, rfl⟩ := hp
  obtain ⟨xs', ys', zs', heq, hys', rfl⟩ := hq
  obtain ⟨rfl, hrest⟩ := List.append_inj heq h
  -- if one of the two balanced texts were longer, it would close a bracket too many
  obtain ⟨as, rfl, has⟩ | ⟨as, rfl, has⟩ := List.append_eq_append_iff.1 (List.cons.inj hrest).2
  · rcases as with _ | ⟨c, as⟩
    · rw [List.append_nil]
    · obtain ⟨rfl, -⟩ := List.cons.inj has
      exact absurd hys' hys.not_append_close
  · rcases as with _ | ⟨c, as⟩
    · rw [List.append_nil]
    · obtain ⟨rfl, -⟩ := List.cons.inj has
      exact absurd hys hys'.not_append_close

/-- The outer brackets of a balanced text come off if they belong together. -/
theorem Balanced.partners_ends_iff (h : Balanced cs) :
    Partners cs (0, cs.length - 1) ↔ ∃ inner, unwrap? cs = some inner := by
  constructor
  · rintro ⟨xs, ys, zs, rfl, hys, heq⟩
    obtain ⟨hxs, hlen⟩ := Prod.mk.inj heq
    rw [eq_comm, List.length_eq_zero_iff] at hxs
    subst hxs
    rw [List.nil_append, List.length_cons, List.length_append, List.length_cons,
      List.length_nil] at hlen
    obtain rfl : zs = [] := List.length_eq_zero_iff.1 (by omega)
    exact ⟨ys, unwrap?_wrap hys⟩
  · rintro ⟨inner, hinner⟩
    have hbal := h.unwrap hinner
    rw [unwrap?_eq_some hinner]
    exact ⟨[], inner, [], rfl, hbal, by simp [Nat.add_comm]⟩

/-! ### The list of pairs -/

theorem bracketPairsFrom_plain {c : Char} (ho : c ≠ '(') (hc : c ≠ ')') (pos : Nat)
    (opened : List Nat) (cs : List Char) :
    bracketPairsFrom pos opened (c :: cs) = bracketPairsFrom (pos + 1) opened cs :=
  bracketPairsFrom.eq_4 _ _ _ _ ho fun _ _ _ => hc

theorem bracketPairsFrom_brackets (hys : Balanced ys) (pos : Nat) (opened : List Nat)
    (zs : List Char) :
    bracketPairsFrom pos opened ('(' :: (ys ++ ')' :: zs)) =
      bracketPairsFrom (pos + 1) (pos :: opened) ys ++
        (pos, pos + 1 + ys.length) :: bracketPairsFrom (pos + 1 + ys.length + 1) opened zs := by
  rw [bracketPairsFrom, bracketPairsFrom_append, hys.openAfter_eq, bracketPairsFrom]

/-- Only partners are listed. -/
theorem Balanced.partners_of_mem (h : Balanced cs) (hp : p ∈ bracketPairsFrom pos opened cs) :
    ∃ i j, Partners cs (i, j) ∧ p = (pos + i, pos + j) := by
  induction h using Balanced.induction generalizing pos opened with
  | nil => simp [bracketPairsFrom] at hp
  | plain c cs ho hc h ih =>
    rw [bracketPairsFrom_plain ho hc] at hp
    obtain ⟨i, j, hij, rfl⟩ := ih hp
    exact ⟨i + 1, j + 1, hij.cons c, by congr 1 <;> omega⟩
  | brackets ys zs hys hzs ihy ihz =>
    rw [bracketPairsFrom_brackets hys, List.mem_append, List.mem_cons] at hp
    rcases hp with hp | rfl | hp
    · obtain ⟨i, j, hij, rfl⟩ := ihy hp
      exact ⟨i + 1, j + 1, hij.between zs, by congr 1 <;> omega⟩
    · exact ⟨0, ys.length + 1, partners_head hys zs, by congr 1; omega⟩
    · obtain ⟨i, j, hij, rfl⟩ := ihz hp
      exact ⟨_, _, hij.behind ys, by congr 1 <;> omega⟩

/-- The pairs that are listed are the partners. -/
theorem mem_bracketPairs_iff (h : Balanced cs) : p ∈ bracketPairs cs ↔ Partners cs p := by
  constructor
  · intro hp
    obtain ⟨i, j, hij, rfl⟩ := h.partners_of_mem hp
    rwa [Nat.zero_add, Nat.zero_add]
  · rintro ⟨xs, ys, zs, rfl, hys, rfl⟩
    exact mem_bracketPairs hys xs zs

theorem le_snd_of_mem_bracketPairsFrom (hp : p ∈ bracketPairsFrom pos opened cs) : pos ≤ p.2 := by
  fun_induction bracketPairsFrom pos opened cs with
  | case1 => cases hp
  | case2 pos opened cs ih => exact Nat.le_of_succ_le (ih hp)
  | case3 pos o opened cs ih =>
    rcases List.mem_cons.1 hp with rfl | hp
    · exact Nat.le_refl _
    · exact Nat.le_of_succ_le (ih hp)
  | case4 pos opened c cs _ _ ih => exact Nat.le_of_succ_le (ih hp)

/-- Pairs are listed in the order in which they are closed. -/
theorem pairwise_bracketPairsFrom (pos : Nat) (opened : List Nat) (cs : List Char) :
    (bracketPairsFrom pos opened cs).Pairwise fun p q => p.2 < q.2 := by
  fun_induction bracketPairsFrom pos opened cs with
  | case1 => exact .nil
  | case2 pos opened cs ih => exact ih
  | case3 pos o opened cs ih =>
    exact List.pairwise_cons.2 ⟨fun q hq => le_snd_of_mem_bracketPairsFrom hq, ih⟩
  | case4 pos opened c cs _ _ ih => exact ih

theorem pairwise_bracketPairs (cs : List Char) :
    (bracketPairs cs).Pairwise fun p q => p.2 < q.2 :=
  pairwise_bracketPairsFrom 0 [] cs

theorem nodup_bracketPairs (cs : List Char) : (bracketPairs cs).Nodup :=
  (pairwise_bracketPairs cs).imp fun h heq => by
    rw [heq] at h
    exact Nat.lt_irrefl _ h

theorem snd_lt_of_lt (hp : (bracketPairs cs)[i]? = some p) (hq : (bracketPairs cs)[j]? = some q)
    (h : i < j) : p.2 < q.2 := by
  obtain ⟨hi, rfl⟩ := List.getElem?_eq_some_iff.1 hp
  obtain ⟨hj, rfl⟩ := List.getElem?_eq_some_iff.1 hq
  exact List.pairwise_iff_getElem.1 (pairwise_bracketPairs cs) i j hi hj h

/-- The first pair reaches over the second one. -/
def Encloses (outer inner : Nat × Nat) : Prop := outer.1 < inner.1 ∧ inner.2 < outer.2

/-- A pair is listed before those that enclose it. -/
theorem lt_of_encloses (hp : (bracketPairs cs)[i]? = some p) (hq : (bracketPairs cs)[j]? = some q)
    (h : Encloses q p) : i < j := by
  refine Nat.lt_of_not_le fun hle => ?_
  rcases Nat.lt_or_eq_of_le hle with hlt | rfl
  · exact Nat.lt_asymm h.2 (snd_lt_of_lt hq hp hlt)
  · obtain rfl : p = q := Option.some.inj (hp.symm.trans hq)
    exact Nat.lt_irrefl _ h.2

/-- A closing bracket has one partner. -/
theorem Balanced.partners_eq_of_snd (h : Balanced cs) (hp : Partners cs p) (hq : Partners cs q)
    (heq : p.2 = q.2) : p = q := by
  obtain ⟨i, hi⟩ := List.mem_iff_getElem?.1 ((mem_bracketPairs_iff h).2 hp)
  obtain ⟨j, hj⟩ := List.mem_iff_getElem?.1 ((mem_bracketPairs_iff h).2 hq)
  rcases Nat.lt_trichotomy i j with hlt | rfl | hlt
  · exact absurd heq (Nat.ne_of_lt (snd_lt_of_lt hi hj hlt))
  · exact Option.some.inj (hi.symm.trans hj)
  · exact absurd heq.symm (Nat.ne_of_lt (snd_lt_of_lt hj hi hlt))

/-- In a balanced text every bracket belongs to one pair. -/
theorem Balanced.existsUnique_partners (h : Balanced cs)
    (hi : cs[i]? = some '(' ∨ cs[i]? = some ')') :
    ∃! p, Partners cs p ∧ (p.1 = i ∨ p.2 = i) := by
  obtain ⟨p, hp, hpi⟩ := h.exists_partners hi
  -- no bracket opens and closes
  have hne : ∀ {p q}, Partners cs p → Partners cs q → p.1 ≠ q.2 := by
    intro p q hp hq heq
    have hopen := hp.getElem?_fst
    rw [heq, hq.getElem?_snd] at hopen
    simp at hopen
  refine ⟨p, ⟨hp, hpi⟩, fun q ⟨hq, hqi⟩ => ?_⟩
  rcases hpi with rfl | rfl
  · rcases hqi with heq | heq
    · exact hq.eq_of_fst hp heq
    · exact absurd heq.symm (hne hp hq)
  · rcases hqi with heq | heq
    · exact absurd heq (hne hq hp)
    · exact h.partners_eq_of_snd hq hp heq

/-! ### Without one pair -/

/-- Where the character at a position moves up to when the two characters of a pair are deleted. -/
def posWithout (p : Nat × Nat) (k : Nat) : Nat :=
  if k < p.1 then k else if k < p.2 then k - 1 else k - 2

theorem getElem?_erasePair (hp : p.1 < p.2) (hk₁ : k ≠ p.1) (hk₂ : k ≠ p.2) :
    (erasePair cs p)[posWithout p k]? = cs[k]? := by
  rw [erasePair, List.getElem?_eraseIdx, List.getElem?_eraseIdx, List.getElem?_eraseIdx, posWithout]
  split
  · rw [if_pos (by omega)]
  · -- a character behind an erased one was a place further on
    split
    · rw [if_neg (by omega), if_pos (by omega), Nat.sub_add_cancel (by omega)]
    · rw [if_neg (by omega), if_neg (by omega)]
      congr 1
      omega

theorem Balanced.erasePair (h : Balanced cs) (hp : Partners cs p) : Balanced (erasePair cs p) := by
  obtain ⟨xs, ys, zs, rfl, hys, rfl⟩ := hp
  rw [erasePair_wrap]
  exact hys.of_brackets h

/-- Pairs are listed alike wherever the text begins. -/
theorem bracketPairsFrom_map (f : Nat → Nat) {pos : Nat} (pos' : Nat) {opened : List Nat}
    {cs : List Char} (hf : ∀ k, k < cs.length → f (pos + k) = pos' + k) :
    (bracketPairsFrom pos opened cs).map (Prod.map f f) =
      bracketPairsFrom pos' (opened.map f) cs := by
  -- behind the first character both texts begin one position later
  have htail : ∀ {pos : Nat} {cs : List Char} {c : Char} {pos' : Nat},
      (∀ k, k < (c :: cs).length → f (pos + k) = pos' + k) →
      f pos = pos' ∧ ∀ k, k < cs.length → f (pos + 1 + k) = pos' + 1 + k := by
    intro pos cs c pos' hf
    refine ⟨hf 0 (Nat.succ_pos _), fun k hk => ?_⟩
    rw [Nat.add_assoc, Nat.add_comm 1 k, hf (k + 1) (Nat.succ_lt_succ hk)]
    omega
  fun_induction bracketPairsFrom pos opened cs generalizing pos' with
  | case1 => rfl
  | case2 pos opened cs ih =>
    obtain ⟨hpos, hcs⟩ := htail hf
    rw [bracketPairsFrom, ih _ hcs, List.map_cons, hpos]
  | case3 pos o opened cs ih =>
    obtain ⟨hpos, hcs⟩ := htail hf
    rw [List.map_cons, List.map_cons, bracketPairsFrom, ih _ hcs, Prod.map_apply, hpos]
  | case4 pos opened c cs ho hc ih =>
    obtain ⟨-, hcs⟩ := htail hf
    rw [ih _ hcs]
    -- where nothing is open before, nothing is open before it elsewhere
    refine (bracketPairsFrom.eq_4 _ _ _ _ ho fun o os heq hclose => ?_).symm
    obtain ⟨a, l, rfl, -⟩ := List.map_eq_cons_iff.1 heq
    exact hc a l rfl hclose

/-- A balanced text leaves the brackets alone that are open before it. -/
theorem Balanced.bracketPairsFrom_opened (h : Balanced cs) (pos : Nat) (opened : List Nat) :
    bracketPairsFrom pos opened cs = bracketPairsFrom pos [] cs := by
  induction h using Balanced.induction generalizing pos opened with
  | nil => rfl
  | plain c cs ho hc h ih =>
    rw [bracketPairsFrom_plain ho hc, bracketPairsFrom_plain ho hc, ih]
  | brackets ys zs hys hzs ihy ihz =>
    rw [bracketPairsFrom_brackets hys, bracketPairsFrom_brackets hys, ihy, ihy _ [pos], ihz]

theorem lt_of_mem_openAfter (h : k ∈ openAfter pos opened cs) :
    k ∈ opened ∨ k < pos + cs.length := by
  fun_induction openAfter pos opened cs with
  | case1 => exact Or.inl h
  | case2 pos opened cs ih =>
    rw [List.length_cons]
    rcases ih h with hk | hk
    · rcases List.mem_cons.1 hk with rfl | hk
      · exact Or.inr (by omega)
      · exact Or.inl hk
    · exact Or.inr (by omega)
  | case3 pos o opened cs ih =>
    rw [List.length_cons]
    rcases ih h with hk | hk
    · exact Or.inl (List.mem_cons_of_mem _ hk)
    · exact Or.inr (by omega)
  | case4 pos opened c cs ho hc ih =>
    rw [List.length_cons]
    exact (ih h).imp_right fun hk => by omega

/-- What leaves the positions in a text where they are leaves those of its open brackets there. -/
theorem map_openAfter {f : Nat → Nat} (hf : ∀ k, k < cs.length → f k = k) :
    (openAfter 0 [] cs).map f = openAfter 0 [] cs := by
  refine (List.map_congr_left fun k hk => ?_).trans (List.map_id _)
  have hlt := (lt_of_mem_openAfter hk).resolve_left List.not_mem_nil
  exact hf k (by omega)

/-- The pairs that are closed before a pair, those that it encloses, the pair, and those that are
closed behind it. -/
theorem bracketPairs_append (xs : List Char) (hys : Balanced ys) (zs : List Char) :
    bracketPairs (xs ++ '(' :: (ys ++ ')' :: zs)) =
      bracketPairsFrom 0 [] xs ++
        (bracketPairsFrom (xs.length + 1) (xs.length :: openAfter 0 [] xs) ys ++
          (xs.length, xs.length + 1 + ys.length) ::
            bracketPairsFrom (xs.length + 1 + ys.length + 1) (openAfter 0 [] xs) zs) := by
  rw [bracketPairs, bracketPairsFrom_append, Nat.zero_add, bracketPairsFrom_brackets hys]

/-- Without one pair, the others are the pairs that are left. -/
theorem bracketPairs_erasePair (hp : Partners cs p) :
    bracketPairs (erasePair cs p) =
      ((bracketPairs cs).erase p).map (Prod.map (posWithout p) (posWithout p)) := by
  obtain ⟨xs, ys, zs, rfl, hys, hpos⟩ := hp
  rw [show erasePair _ p = xs ++ (ys ++ zs) from hpos ▸ erasePair_wrap xs ys zs,
    bracketPairs_append xs hys, ← hpos]
  have hfst : p.1 = xs.length := congrArg Prod.fst hpos
  have hsnd : p.2 = xs.length + 1 + ys.length := congrArg Prod.snd hpos
  have hstay : ∀ k, k < xs.length → posWithout p k = k := fun k hk => if_pos (by omega)
  -- the pair is none of those that are closed before it
  have hbefore : p ∉ bracketPairsFrom 0 [] xs := fun hmem => by
    have := snd_lt_of_mem_bracketPairsFrom hmem
    omega
  have hbetween : p ∉ bracketPairsFrom (xs.length + 1) (xs.length :: openAfter 0 [] xs) ys := by
    intro hmem
    have := snd_lt_of_mem_bracketPairsFrom hmem
    omega
  -- the three other lists move up by none, one and two
  have hxs : (bracketPairsFrom 0 [] xs).map (Prod.map (posWithout p) (posWithout p)) =
      bracketPairsFrom 0 [] xs := by
    rw [bracketPairsFrom_map (posWithout p) 0, List.map_nil]
    intro k hk
    rw [Nat.zero_add, hstay k hk]
  have hys' : (bracketPairsFrom (xs.length + 1) (xs.length :: openAfter 0 [] xs) ys).map
      (Prod.map (posWithout p) (posWithout p)) = bracketPairsFrom xs.length [] ys := by
    rw [bracketPairsFrom_map (posWithout p) xs.length, hys.bracketPairsFrom_opened]
    intro k hk
    rw [posWithout, if_neg (by omega), if_pos (by omega)]
    omega
  have hzs : (bracketPairsFrom (xs.length + 1 + ys.length + 1) (openAfter 0 [] xs) zs).map
      (Prod.map (posWithout p) (posWithout p)) =
        bracketPairsFrom (xs.length + ys.length) (openAfter 0 [] xs) zs := by
    rw [bracketPairsFrom_map (posWithout p) (xs.length + ys.length), map_openAfter hstay]
    intro k hk
    rw [posWithout, if_neg (by omega), if_neg (by omega)]
    omega
  rw [List.erase_append_right _ hbefore, List.erase_append_right _ hbetween,
    List.erase_cons_head, List.map_append, List.map_append, hxs, hys', hzs, bracketPairs,
    bracketPairsFrom_append, bracketPairsFrom_append, Nat.zero_add, hys.openAfter_eq,
    hys.bracketPairsFrom_opened _ (openAfter 0 [] xs)]

/-- The two characters of a pair can be deleted: what is left is balanced, it consists of the other
characters, and just the other pairs belong together in it. -/
structure Deletable (cs : List Char) (p : Nat × Nat) : Prop where
  balanced : Balanced (erasePair cs p)
  getElem?_eq (k : Nat) : k ≠ p.1 → k ≠ p.2 → (erasePair cs p)[posWithout p k]? = cs[k]?
  partners (q : Nat × Nat) : Partners cs q → q ≠ p →
    Partners (erasePair cs p) (posWithout p q.1, posWithout p q.2)
  bracketPairs_eq : bracketPairs (erasePair cs p) =
    ((bracketPairs cs).erase p).map (Prod.map (posWithout p) (posWithout p))

theorem Balanced.deletable (h : Balanced cs) (hp : Partners cs p) : Deletable cs p where
  balanced := h.erasePair hp
  getElem?_eq _ := getElem?_erasePair hp.lt
  partners q hq hne := by
    rw [← mem_bracketPairs_iff (h.erasePair hp), bracketPairs_erasePair hp]
    exact List.mem_map_of_mem ((List.mem_erase_of_ne hne).2 ((mem_bracketPairs_iff h).2 hq))
  bracketPairs_eq := bracketPairs_erasePair hp

end RegexAutomata.Text
