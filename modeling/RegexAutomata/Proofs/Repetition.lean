/-
Repetitions inside one another.

The automaton of an operand with `n` repetitions around it is a tower: the states
`2 k` and `2 k + 1` are the ends of the part with `k` repetitions, and those of
each part are joined to those of the next one (`ways_ofRegex_starred`).  Taking
out the two lowest states leaves a tower with one storey less, in which `again` of
what stood between them stands between the next two (`bypass_tower`).

`again` builds `x x*` and adds the empty string, which two times in a row doubles
an expression (`again_star`, `again_doubled`).  So the expressions grow
exponentially with the number of repetitions, and twenty-four of them are enough
for one that is too long to be written (`eliminate_starred_ne_ok`).
-/
import RegexAutomata.Proofs.Ways

namespace RegexAutomata

namespace Regex

variable {e l r x : Regex} {t : SymbolTable}

/-- An expression with a number of repetitions around it. -/
def starred : Nat → Regex → Regex
  | 0, e => e
  | n + 1, e => .star (starred n e)

/-- What one more repetition makes of the expression between two states: nothing
at all, or the expression once and then any number of times. -/
def again (e : Regex) : Regex := emptyString.either (e.followedBy e.repeated)

/-- The empty string, or two repetitions in a row. -/
def doubled (x : Regex) : Regex := .union emptyString (.concat (.star x) (.star x))

theorem wellFormed_starred (h : e.WellFormed) (n : Nat) : (starred n e).WellFormed := by
  induction n with
  | zero => exact h
  | succ n ih => exact ih

/-! ### Two repetitions double an expression -/

theorem again_char (c : Char) : again (.operand (.char c)) = .star (.operand (.char c)) := by
  simp [again, repeated, followedBy, either, closure?]

theorem again_star (x : Regex) : again (.star x) = doubled x := by
  have hne : x.star ≠ x.star.star := fun h => by
    have hsize := congrArg size h
    simp [size] at hsize
  simp [again, repeated, followedBy, either, closure?, doubled, hne]

theorem again_doubled (x : Regex) : again (doubled x) = .star (doubled x) := by
  simp [again, repeated, followedBy, either, closure?, doubled]

theorem again_iterate_odd (c : Char) (k : Nat) :
    again^[2 * k + 1] (.operand (.char c)) = .star (doubled^[k] (.operand (.char c))) := by
  induction k with
  | zero => exact again_char c
  | succ k ih =>
    rw [Nat.mul_succ, Nat.add_right_comm, Function.iterate_succ_apply',
      Function.iterate_succ_apply', ih, again_star, again_doubled,
      Function.iterate_succ_apply' doubled]

theorem again_iterate_even (c : Char) (k : Nat) :
    again^[2 * (k + 1)] (.operand (.char c)) = doubled^[k + 1] (.operand (.char c)) := by
  rw [Nat.mul_succ, Function.iterate_succ_apply', again_iterate_odd, again_star,
    Function.iterate_succ_apply' doubled]

/-! ### How long it gets -/

theorem length_star (e : Regex) (t : SymbolTable) :
    (e.placed t 0).length + 1 ≤ ((star e).placed t 0).length := by
  have he := e.length_placed_le t Operator.star.strength
  rw [length_placed_star]
  omega

theorem length_concat (l r : Regex) (t : SymbolTable) :
    (l.placed t 0).length + (r.placed t 0).length + 1 ≤ ((concat l r).placed t 0).length := by
  have hl := l.length_placed_le t Operator.concat.strength
  have hr := r.length_placed_le t (Operator.concat.strength + 1)
  rw [length_placed_concat]
  omega

theorem length_union (l r : Regex) (t : SymbolTable) :
    (l.placed t 0).length + (r.placed t 0).length + 1 ≤ ((union l r).placed t 0).length := by
  have hl := l.length_placed_le t Operator.union.strength
  have hr := r.length_placed_le t (Operator.union.strength + 1)
  rw [length_placed_union]
  omega

theorem length_doubled (x : Regex) (t : SymbolTable) :
    2 * (x.placed t 0).length + 5 ≤ ((doubled x).placed t 0).length := by
  have hstar := length_star x t
  have hconcat := length_concat x.star x.star t
  have hunion := length_union emptyString (.concat x.star x.star) t
  rw [length_placed_operand] at hunion
  rw [doubled]
  omega

theorem length_doubled_iterate (x : Regex) (t : SymbolTable) (k : Nat) :
    2 ^ k * ((x.placed t 0).length + 5) ≤ ((doubled^[k] x).placed t 0).length + 5 := by
  induction k with
  | zero => simp
  | succ k ih =>
    have hlen := length_doubled (doubled^[k] x) t
    rw [Function.iterate_succ_apply', Nat.pow_succ, Nat.mul_right_comm]
    omega

/-- The empty string or `x x*`, formed two dozen times in turn out of a letter, is
too long. -/
theorem not_writable_again_iterate (c : Char) (t : SymbolTable) :
    ¬ (again^[24] (.operand (.char c))).Writable t := by
  rintro ⟨hlen, -⟩
  have h := length_doubled_iterate (.operand (.char c)) t 12
  rw [again_iterate_even c 11, display, String.length_ofList] at hlen
  rw [length_placed_operand] at h
  exact absurd (Nat.le_trans h (Nat.add_le_add_right hlen 5)) (by decide)

end Regex

namespace Ways

open Automaton Regex

variable {j n p r q : Nat} {e : Regex}

/-! ### A transition that reads nothing -/

/-- A detour that starts with it is what comes after it. -/
theorem around_join (e : Regex) : around emptySet emptyString emptySet e = e := by
  show emptySet.either (emptyString.followedBy e) = e
  rw [emptyString_followedBy, either, if_pos rfl]

/-- Beside a part that is also the loop, the part is left out or repeated. -/
theorem around_twice (e : Regex) : around emptyString e e emptyString = again e := by
  rw [around, followedBy_emptyString, again]

/-! ### Towers -/

/-- The ends of the part with some number of repetitions. -/
def storey (k : Nat) : Fragment := ⟨2 * k, 2 * k + 1⟩

/-- Two states of a tower are joined: they are ends of a part and of the next
one, or ends of the same part, as a repetition around a part joins them.  The
lowest part is that with `j` repetitions, the highest one that with `n`. -/
def Joined (j n p r : Nat) : Prop :=
  ∃ k, k < n ∧ j ≤ k ∧ (p, r) ∈ starJoins (storey k) (storey (k + 1))

instance (j n p r : Nat) : Decidable (Joined j n p r) :=
  inferInstanceAs (Decidable (∃ k, k < n ∧ _))

/-- A tower on a part with the expression `e`. -/
def tower (n j : Nat) (e : Regex) : Ways := fun p r =>
  if p = 2 * j ∧ r = 2 * j + 1 then e
  else if Joined j n p r then emptyString else emptySet

theorem mem_starJoins_storey (k : Nat) :
    (p, r) ∈ starJoins (storey k) (storey (k + 1)) ↔
      p = 2 * k + 2 ∧ r = 2 * k ∨ p = 2 * k + 1 ∧ r = 2 * k + 3 ∨
        p = 2 * k + 1 ∧ r = 2 * k ∨ p = 2 * k + 2 ∧ r = 2 * k + 3 := by
  simp [starJoins, storey, Nat.mul_add]

/-- Above its lowest storey a tower is a tower. -/
theorem joined_iff (hj : j < n) :
    Joined j n p r ↔
      (p, r) ∈ starJoins (storey j) (storey (j + 1)) ∨ Joined (j + 1) n p r := by
  constructor
  · rintro ⟨k, hk, hjk, hmem⟩
    rcases Nat.eq_or_lt_of_le hjk with rfl | hlt
    · exact Or.inl hmem
    · exact Or.inr ⟨k, hk, hlt, hmem⟩
  · rintro (hmem | ⟨k, hk, hjk, hmem⟩)
    · exact ⟨j, hj, Nat.le_refl j, hmem⟩
    · exact ⟨k, hk, Nat.le_of_succ_le hjk, hmem⟩

theorem joined_succ : Joined j (n + 1) p r ↔
    Joined j n p r ∨ j ≤ n ∧ (p, r) ∈ starJoins (storey n) (storey (n + 1)) := by
  constructor
  · rintro ⟨k, hk, hjk, hmem⟩
    rcases Nat.eq_or_lt_of_le (Nat.le_of_lt_succ hk) with rfl | hlt
    · exact Or.inr ⟨hjk, hmem⟩
    · exact Or.inl ⟨k, hlt, hjk, hmem⟩
  · rintro (⟨k, hk, hjk, hmem⟩ | ⟨hjn, hmem⟩)
    · exact ⟨k, Nat.lt_succ_of_lt hk, hjk, hmem⟩
    · exact ⟨n, Nat.lt_succ_self n, hjn, hmem⟩

/-- The joined states are those of the storeys, and the two lowest ones are joined
by the part between them only. -/
theorem le_of_joined (h : Joined j n p r) :
    2 * j ≤ p ∧ 2 * j ≤ r ∧ p < 2 * n + 2 ∧ r < 2 * n + 2 ∧ ¬ (p = 2 * j ∧ r = 2 * j + 1) := by
  obtain ⟨k, hk, hjk, hmem⟩ := h
  rw [mem_starJoins_storey] at hmem
  omega

theorem tower_part (n j : Nat) (e : Regex) : tower n j e (2 * j) (2 * j + 1) = e :=
  if_pos ⟨rfl, rfl⟩

theorem tower_of_joined (h : Joined j n p r) : tower n j e p r = emptyString := by
  obtain ⟨-, -, -, -, hpart⟩ := le_of_joined h
  rw [tower, if_neg hpart, if_pos h]

theorem tower_of_not_joined (h : ¬ Joined j n p r) (hpart : ¬ (p = 2 * j ∧ r = 2 * j + 1)) :
    tower n j e p r = emptySet := by
  rw [tower, if_neg hpart, if_neg h]

/-- Nothing leads from or to a state below the lowest storey. -/
theorem tower_of_lt (h : p < 2 * j ∨ r < 2 * j) : tower n j e p r = emptySet := by
  refine tower_of_not_joined (fun hjoined => ?_) (by omega)
  have := le_of_joined hjoined
  omega

/-! ### Taking the lowest storey out -/

theorem joined_of_lowest (hj : j < n)
    (h : p = 2 * j + 2 ∧ r = 2 * j ∨ p = 2 * j + 1 ∧ r = 2 * j + 3 ∨
      p = 2 * j + 1 ∧ r = 2 * j ∨ p = 2 * j + 2 ∧ r = 2 * j + 3) : Joined j n p r :=
  (joined_iff hj).2 (Or.inl ((mem_starJoins_storey j).2 h))

theorem not_joined_of_lowest (hj : j < n) (hlow : p < 2 * j + 2 ∨ r < 2 * j + 2)
    (h : ¬ (p = 2 * j + 2 ∧ r = 2 * j ∨ p = 2 * j + 1 ∧ r = 2 * j + 3 ∨
      p = 2 * j + 1 ∧ r = 2 * j ∨ p = 2 * j + 2 ∧ r = 2 * j + 3)) : ¬ Joined j n p r := by
  rw [joined_iff hj, mem_starJoins_storey]
  rintro (hmem | hjoined)
  · exact h hmem
  · have := le_of_joined hjoined
    omega

/-- Nothing else leads from or to a state of the lowest storey. -/
theorem tower_of_lowest (hj : j < n) (hlow : p < 2 * j + 2 ∨ r < 2 * j + 2)
    (h : ¬ (p = 2 * j + 2 ∧ r = 2 * j ∨ p = 2 * j + 1 ∧ r = 2 * j + 3 ∨
      p = 2 * j + 1 ∧ r = 2 * j ∨ p = 2 * j + 2 ∧ r = 2 * j + 3))
    (hpart : ¬ (p = 2 * j ∧ r = 2 * j + 1)) : tower n j e p r = emptySet :=
  tower_of_not_joined (not_joined_of_lowest hj hlow h) hpart

/-- Without the lower end, the part is entered where it is left. -/
theorem bypass_entry (hj : j < n) (hp : p ≠ 2 * j) (hr : r ≠ 2 * j) :
    (tower n j e).bypass (2 * j) p r =
      if r = 2 * j + 1 then if p = 2 * j + 1 ∨ p = 2 * j + 2 then e else emptySet
      else if Joined j n p r then emptyString else emptySet := by
  rw [bypass_of_ne hp hr]
  by_cases hexit : r = 2 * j + 1
  · subst hexit
    have hdirect : tower n j e p (2 * j + 1) = emptySet :=
      tower_of_lowest hj (by omega) (by omega) (by omega)
    have hloop : tower n j e (2 * j) (2 * j) = emptySet :=
      tower_of_lowest hj (by omega) (by omega) (by omega)
    rw [if_pos rfl, tower_part, hdirect, hloop]
    by_cases hback : p = 2 * j + 1 ∨ p = 2 * j + 2
    · rw [if_pos hback, tower_of_joined (joined_of_lowest hj (by omega)), around_join]
    · have hinto : tower n j e p (2 * j) = emptySet :=
        tower_of_lowest hj (by omega) (by omega) (by omega)
      rw [if_neg hback, around_of_eq_emptySet (Or.inl hinto)]
  · have hout : tower n j e (2 * j) r = emptySet :=
      tower_of_lowest hj (by omega) (by omega) (by omega)
    have hpart : ¬ (p = 2 * j ∧ r = 2 * j + 1) := by omega
    rw [if_neg hexit, around_of_eq_emptySet (Or.inr hout), tower, if_neg hpart]

theorem bypass_exit (hj : j < n) (e : Regex) (p r : Nat) :
    ((tower n j e).bypass (2 * j)).bypass (2 * j + 1) p r = tower n (j + 1) (again e) p r := by
  by_cases hexit : p = 2 * j + 1 ∨ r = 2 * j + 1
  · have hlt : p < 2 * (j + 1) ∨ r < 2 * (j + 1) := by omega
    rw [bypass_of_eq hexit, tower_of_lt hlt]
  obtain ⟨hpexit, hrexit⟩ := not_or.1 hexit
  rw [bypass_of_ne hpexit hrexit]
  by_cases hentry : p = 2 * j ∨ r = 2 * j
  · have hlt : p < 2 * (j + 1) ∨ r < 2 * (j + 1) := by omega
    rw [around_of_eq_emptySet (hentry.imp (fun hp => bypass_of_eq (Or.inl hp)) fun hr =>
      bypass_of_eq (Or.inr hr)), bypass_of_eq hentry, tower_of_lt hlt]
  obtain ⟨hp, hr⟩ := not_or.1 hentry
  rw [bypass_entry hj hp hr, bypass_entry hj hp (by omega),
    bypass_entry hj (by omega) (by omega), bypass_entry hj (by omega) hr, if_neg hrexit,
    if_neg hrexit, if_pos rfl, if_pos rfl, if_pos (Or.inl rfl)]
  by_cases hends : p = 2 * j + 2 ∧ r = 2 * j + 3
  · -- the part can be passed by, or be gone through
    obtain ⟨rfl, rfl⟩ := hends
    rw [if_pos (joined_of_lowest hj (by omega)), if_pos (Or.inr rfl),
      if_pos (joined_of_lowest hj (by omega)), around_twice]
    exact (tower_part n (j + 1) _).symm
  · have hpart : ¬ (p = 2 * (j + 1) ∧ r = 2 * (j + 1) + 1) := by omega
    rw [around_of_eq_emptySet, tower, if_neg hpart]
    · refine if_congr ?_ rfl rfl
      rw [joined_iff hj, mem_starJoins_storey]
      exact or_iff_right (by omega)
    · by_cases hinto : p = 2 * j + 2
      · exact Or.inr (if_neg (not_joined_of_lowest hj (by omega) (by omega)))
      · exact Or.inl (if_neg (by omega))

/-- Taking out the two lowest states takes a storey away, and repeats what stood
between them. -/
theorem bypass_tower (hj : j < n) (e : Regex) :
    ((tower n j e).bypass (2 * j)).bypass (2 * j + 1) = tower n (j + 1) (again e) :=
  funext₂ (bypass_exit hj e)

/-- All that repeating builds arises in a tower that is high enough. -/
theorem arises_again {i f : State} {k : Nat} (m : Nat) :
    Ways.Arises i f (List.range' (2 * j) (2 * (k + m))) (tower (j + k + m) j e) (again^[k] e) := by
  induction k generalizing j e with
  | zero =>
    have h : Ways.Arises i f (List.range' (2 * j) (2 * (0 + m))) (tower (j + 0 + m) j e)
        (tower (j + 0 + m) j e (2 * j) (2 * j + 1)) := .way _ _
    rwa [tower_part] at h
  | succ k ih =>
    rw [show 2 * (k + 1 + m) = 2 * (k + m) + 1 + 1 by omega, List.range'_succ, List.range'_succ]
    refine .later (.later ?_)
    rw [bypass_tower (by omega)]
    have h := ih (j := j + 1) (e := again e)
    rwa [show j + 1 + k + m = j + (k + 1) + m by omega] at h

end Ways

namespace Automaton

open Regex Ways

variable {e : Regex} {o : Operand} {t : SymbolTable} {n p q r : State}

/-! ### The automaton of a repeated operand -/

/-- The ends of the fragment are the two states that were added last. -/
theorem ends_starred (o : Operand) (n : Nat) :
    (buildInto (starred n (.operand o)) .empty).1 = storey n ∧
      (buildInto (starred n (.operand o)) .empty).2.nextState = 2 * n + 2 := by
  induction n with
  | zero => exact ⟨by rw [starred, buildInto_operand]; rfl, by
      rw [starred, buildInto_operand, nextState_write, nextState_addEnds]; rfl⟩
  | succ n ih =>
    rw [starred, buildInto_star _ _ rfl]
    dsimp only
    rw [nextState_write, nextState_addEnds, ih.2]
    exact ⟨congrArg (fun q => (⟨q, q + 1⟩ : Fragment)) ih.2, rfl⟩

theorem addEnds_starred (o : Operand) (n : Nat) :
    (buildInto (starred n (.operand o)) .empty).2.addEnds.1 = storey (n + 1) :=
  congrArg (fun q => (⟨q, q + 1⟩ : Fragment)) (ends_starred o n).2

theorem contains_starred (o : Operand) (n : Nat) (q : State) :
    (buildInto (starred n (.operand o)) .empty).2.contains q = true ↔ q < 2 * n + 2 := by
  induction n with
  | zero =>
    rw [starred, buildInto_operand, contains_write, contains_addEnds,
      contains_eq_false (a := .empty) (Nat.zero_le q)]
    show q = 0 ∨ q = 1 ∨ false = true ↔ _
    lia
  | succ n ih =>
    rw [starred, buildInto_star _ _ rfl]
    dsimp only
    rw [contains_write, contains_addEnds, ih, (ends_starred o n).2]
    lia

/-- The operand stands in the lowest storey, and the storeys are joined. -/
theorem label?_starred (o : Operand) (n : Nat) (p r : State) :
    (buildInto (starred n (.operand o)) .empty).2.label? p r =
      if p = 0 ∧ r = 1 then some o.print
      else if Joined 0 n p r then some Operand.emptyString.print else none := by
  induction n with
  | zero =>
    have hnot : ¬ Joined 0 0 p r := fun ⟨k, hk, _⟩ => absurd hk (Nat.not_lt_zero k)
    rw [starred, buildInto_operand, label?_around (around_operand .empty o),
      wellLinked_empty.label?_eq_none (Or.inl (Nat.zero_le p)), Option.or_none, if_neg hnot,
      written?, written?, Option.none_or]
    exact if_congr (and_congr eq_comm eq_comm) rfl rfl
  | succ n ih =>
    have hb := builds_buildInto wellLinked_empty (starred n (.operand o))
    rw [starred, buildInto_star _ _ rfl]
    dsimp only
    rw [label?_around (around_star hb), written?_joins, ih, (ends_starred o n).1,
      addEnds_starred]
    by_cases hjoin : (p, r) ∈ starJoins (storey n) (storey (n + 1))
    · -- nothing is written over the operand
      have hjoined : Joined 0 (n + 1) p r := joined_succ.2 (Or.inr ⟨Nat.zero_le n, hjoin⟩)
      obtain ⟨-, -, -, -, hpart⟩ := le_of_joined hjoined
      rw [if_pos hjoin, Option.some_or, if_neg hpart, if_pos hjoined]
    · have hiff : Joined 0 (n + 1) p r ↔ Joined 0 n p r := by
        rw [joined_succ]
        exact or_iff_left fun h => hjoin h.2
      rw [if_neg hjoin, Option.none_or]
      simp only [hiff]

theorem ofRegex_starred (o : Operand) (n : Nat) :
    ofRegex (starred n (.operand o)) =
      { (buildInto (starred n (.operand o)) .empty).2 with
        initial := some (2 * n)
        final := some (2 * n + 1) } := by
  rw [ofRegex_eq_roles, (ends_starred o n).1]
  rfl

/-- The automaton of a repeated operand is a tower on the operand. -/
theorem ways_ofRegex_starred (ho : o.Proper) (t : SymbolTable) (n : Nat) :
    (ofRegex (starred n (.operand o))).ways t = tower n 0 (.operand o) := by
  funext p r
  have hlabel : (ofRegex (starred n (.operand o))).label? p r =
      (buildInto (starred n (.operand o)) .empty).2.label? p r := by rw [ofRegex_starred]; rfl
  refine ways_eq ?_
  rw [labelRegex, hlabel, label?_starred, tower]
  by_cases hpart : p = 0 ∧ r = 1
  · rw [if_pos hpart, if_pos hpart]
    exact readLabel_print t ho
  · rw [if_neg hpart, if_neg hpart]
    by_cases hjoined : Joined 0 n p r
    · rw [if_pos hjoined, if_pos hjoined]
      exact readLabel_print t (o := .emptyString) trivial
    · rw [if_neg hjoined, if_neg hjoined]

/-- Where the roles are with the two last states, the others are inner ones. -/
theorem innerStates_eq_range {a : Automaton} {m : Nat} (hnext : a.nextState = m + 2)
    (hcontains : ∀ q : Nat, a.contains q = true ↔ q < m + 2) (hi : a.initial = some m)
    (hf : a.final = some (m + 1)) : a.innerStates = List.range m := by
  have hterminal : ∀ q : Nat, a.isTerminal q = true ↔ q = m ∨ q = m + 1 := by
    intro q
    rw [isTerminal, hi, hf]
    simp only [Bool.or_eq_true, decide_eq_true_eq, Option.some.injEq]
    exact or_congr eq_comm eq_comm
  have hall : a.states = List.range (m + 2) := by
    rw [states, show a.rows.size = m + 2 from hnext]
    exact List.filter_eq_self.2 fun q hq => (hcontains q).2 (List.mem_range.1 hq)
  have hlow : (List.range m).filter (fun q => !a.isTerminal q) = List.range m := by
    refine List.filter_eq_self.2 fun q hq => ?_
    rw [Bool.not_eq_true', Bool.eq_false_iff, ne_eq, hterminal]
    have hq := List.mem_range.1 hq
    omega
  have hentry := (hterminal m).2 (Or.inl rfl)
  have hexit := (hterminal (m + 1)).2 (Or.inr rfl)
  rw [innerStates, hall, List.range_succ, List.range_succ, List.filter_append,
    List.filter_append, hlow, List.filter_cons_of_neg (by simp [hentry]),
    List.filter_cons_of_neg (by simp [hexit]), List.filter_nil, List.append_nil,
    List.append_nil]

/-- All states are inner ones but the ends of the highest storey. -/
theorem innerStates_ofRegex_starred (o : Operand) (n : Nat) :
    (ofRegex (starred n (.operand o))).innerStates = List.range (2 * n) := by
  rw [ofRegex_starred]
  exact innerStates_eq_range (ends_starred o n).2 (contains_starred o n) rfl rfl

/-- **Repetitions add up.**  Two dozen repetitions of one letter make an expression
whose automaton cannot be turned back: what it would take is too long to be
written. -/
theorem eliminate_starred_ne_ok {c : Char} (hc : (Operand.char c).Proper) (t : SymbolTable)
    {n : Nat} (hn : 24 ≤ n) (text : String) :
    (ofRegex (starred n (.operand (.char c)))).eliminate t ≠ .ok text := by
  obtain ⟨m, rfl⟩ := Nat.exists_eq_add_of_le hn
  have he := wellFormed_starred (e := .operand (.char c)) hc (24 + m)
  rcases (ready_ofRegex he t).eliminateWithin_cases (terminals_ofRegex _)
    (writable_ways_ofRegex he t) (length_innerStates_le _) with ⟨-, hall⟩ | ⟨e, -, -, herror⟩
  · refine absurd (hall _ ?_) (not_writable_again_iterate c t)
    rw [innerStates_ofRegex_starred, ways_ofRegex_starred hc, List.range_eq_range',
      ← Nat.zero_add (24 + m), ← Nat.add_assoc]
    exact arises_again (j := 0) (k := 24) m
  · rw [eliminate, herror]
    simp

end Automaton

end RegexAutomata
