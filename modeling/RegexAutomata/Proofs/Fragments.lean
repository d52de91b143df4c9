/-
What the automaton of an expression is made of.

An automaton `Extends` another one if it has grown out of it and has left its
states and transitions alone.  Among the states that are new a fragment
`IsPart` of it if it has one way in, its entry, which nothing enters, and one
way out, its exit, which nothing leaves, and if every new state is on a way
from the one to the other.

Building the fragment of an expression extends an automaton by such a part
(`builds_buildInto`), whose labels are single operands.  So nothing is ever
written over, and the automaton of an expression is valid
(`isValid_ofRegex`).
-/
import RegexAutomata.Proofs.Characters
import RegexAutomata.Proofs.Validity

namespace RegexAutomata.Automaton

variable {a b c : Automaton} {p q x y keep absorb : State} {ends : Fragment} {e l r : Regex}
  {ws : List Rewrite} {js : List (State × State)}

/-! ### States that are not there -/

theorem contains_eq_false (h : a.nextState ≤ q) : a.contains q = false := by
  rcases hq : a.contains q with _ | _
  · rfl
  · exact absurd (lt_nextState hq) (Nat.not_lt.2 h)

theorem WellLinked.label?_eq_none_of_contains (h : a.WellLinked)
    (hpq : a.contains p = false ∨ a.contains q = false) : a.label? p q = none := by
  rcases hl : a.label? p q with _ | label
  · rfl
  · obtain ⟨hp, hq⟩ := h.contains_of_label? hl
    rw [hp, hq] at hpq
    simp at hpq

theorem WellLinked.label?_eq_none (h : a.WellLinked) (hpq : a.nextState ≤ p ∨ a.nextState ≤ q) :
    a.label? p q = none :=
  h.label?_eq_none_of_contains (hpq.imp contains_eq_false contains_eq_false)

theorem Reaches.mono (h : ∀ x y, a.Leads x y → b.Leads x y) (hpq : a.Reaches p q) :
    b.Reaches p q := Relation.ReflTransGen.mono h _ _ hpq

/-! ### Two new states -/

theorem contains_addEnds :
    a.addEnds.2.contains x = true ↔
      x = a.nextState ∨ x = a.nextState + 1 ∨ a.contains x = true := by
  show a.addState.addState.contains x = true ↔ _
  rw [contains_addState, contains_addState, nextState_addState]
  simp only [Bool.or_eq_true, decide_eq_true_eq]
  tauto

theorem label?_addEnds (a : Automaton) (x y : State) :
    a.addEnds.2.label? x y = a.label? x y := by
  show a.addState.addState.label? x y = _
  rw [label?_addState, label?_addState]

theorem nextState_addEnds (a : Automaton) : a.addEnds.2.nextState = a.nextState + 2 := by
  show a.addState.addState.nextState = _
  rw [nextState_addState, nextState_addState]

/-! ### Transitions that read nothing -/

theorem mem_joins {label : String} :
    ⟨x, y, label⟩ ∈ joins js ↔ (x, y) ∈ js ∧ label = Operand.emptyString.print := by
  rw [joins, List.mem_map]
  constructor
  · rintro ⟨⟨x', y'⟩, hmem, heq⟩
    simp only [Rewrite.mk.injEq] at heq
    obtain ⟨rfl, rfl, rfl⟩ := heq
    exact ⟨hmem, rfl⟩
  · rintro ⟨hmem, rfl⟩
    exact ⟨(x, y), hmem, rfl⟩

theorem written?_joins (js : List (State × State)) (x y : State) :
    written? (joins js) x y = if (x, y) ∈ js then some Operand.emptyString.print else none := by
  refine written?_eq fun label => ?_
  rw [mem_joins]
  by_cases hxy : (x, y) ∈ js
  · rw [if_pos hxy, Option.some.injEq]
    exact ⟨fun h => h.2.symm, fun h => ⟨hxy, h.symm⟩⟩
  · rw [if_neg hxy]
    exact ⟨fun h => absurd h.1 hxy, fun h => absurd h (by simp)⟩

/-! ### Growing -/

/-- An automaton has grown out of another one and has left its states and
transitions alone; nothing joins them to what is new. -/
structure Extends (a b : Automaton) : Prop where
  linked : b.WellLinked
  nextState_le : a.nextState ≤ b.nextState
  initial : b.initial = a.initial
  final : b.final = a.final
  contains_eq : ∀ q, q < a.nextState → b.contains q = a.contains q
  label?_eq : ∀ p q, p < a.nextState ∨ q < a.nextState → b.label? p q = a.label? p q

namespace Extends

theorem refl (h : a.WellLinked) : Extends a a where
  linked := h
  nextState_le := Nat.le_refl _
  initial := rfl
  final := rfl
  contains_eq _ _ := rfl
  label?_eq _ _ _ := rfl

theorem trans (h : Extends a b) (h' : Extends b c) : Extends a c where
  linked := h'.linked
  nextState_le := Nat.le_trans h.nextState_le h'.nextState_le
  initial := h'.initial.trans h.initial
  final := h'.final.trans h.final
  contains_eq q hq := by
    rw [h'.contains_eq q (Nat.lt_of_lt_of_le hq h.nextState_le), h.contains_eq q hq]
  label?_eq p q hpq := by
    rw [h'.label?_eq p q (hpq.imp (fun hp => Nat.lt_of_lt_of_le hp h.nextState_le)
      fun hq => Nat.lt_of_lt_of_le hq h.nextState_le), h.label?_eq p q hpq]

/-- Nothing leads from what was there to what is new, or back. -/
theorem label?_across (h : Extends a b) (ha : a.WellLinked)
    (hpq : p < a.nextState ∧ a.nextState ≤ q ∨ a.nextState ≤ p ∧ q < a.nextState) :
    b.label? p q = none := by
  rw [h.label?_eq p q (hpq.imp And.left And.right)]
  exact ha.label?_eq_none (hpq.symm.imp And.left And.right)

theorem addEnds (h : Extends a b) : Extends a b.addEnds.2 where
  linked := h.linked.addEnds
  nextState_le := by
    rw [nextState_addEnds]
    have := h.nextState_le
    lia
  initial := h.initial
  final := h.final
  contains_eq q hq := by
    have hle := h.nextState_le
    rw [← h.contains_eq q hq, Bool.eq_iff_iff, contains_addEnds]
    refine ⟨fun hor => ?_, fun hc => Or.inr (Or.inr hc)⟩
    rcases hor with rfl | rfl | hc
    · lia
    · lia
    · exact hc
  label?_eq p q hpq := by rw [label?_addEnds, h.label?_eq p q hpq]

theorem write (h : Extends a b)
    (hws : ∀ w ∈ ws, b.contains w.source = true ∧ b.contains w.target = true)
    (hnew : ∀ w ∈ ws, a.nextState ≤ w.source ∧ a.nextState ≤ w.target) :
    Extends a (b.write ws) where
  linked := h.linked.write ws
  nextState_le := by
    rw [nextState_write]
    exact h.nextState_le
  initial := by rw [initial_write, h.initial]
  final := by rw [final_write, h.final]
  contains_eq q hq := by rw [contains_write, h.contains_eq q hq]
  label?_eq p q hpq := by
    have hnone : written? ws p q = none := by
      rw [written?_eq_none_iff]
      rintro w hw ⟨rfl, rfl⟩
      have := hnew w hw
      lia
    rw [label?_write hws, hnone, Option.none_or, h.label?_eq p q hpq]

theorem merge (h : Extends a b) (ha : a.WellLinked) (hne : keep ≠ absorb)
    (hk : b.contains keep = true) (hc : b.contains absorb = true)
    (hleave : ∀ y, b.label? keep y = none) (henter : ∀ x, b.label? x absorb = none)
    (hknew : a.nextState ≤ keep) (hanew : a.nextState ≤ absorb) :
    Extends a (b.merge keep absorb) where
  linked := h.linked.merge keep absorb
  nextState_le := by
    rw [nextState_merge hne hk hc]
    exact h.nextState_le
  initial := by
    rw [(roles_merge hne hk hc).1, if_neg, h.initial]
    intro hi
    rw [h.initial] at hi
    exact absurd (lt_nextState (ha.initial_mem absorb hi)) (Nat.not_lt.2 hanew)
  final := by
    rw [(roles_merge hne hk hc).2, if_neg, h.final]
    intro hf
    rw [h.final] at hf
    exact absurd (lt_nextState (ha.final_mem absorb hf)) (Nat.not_lt.2 hanew)
  contains_eq q hq := by
    rw [contains_merge hne hk hc, if_neg (by lia), h.contains_eq q hq]
  label?_eq p q hpq := by
    rw [label?_merge hne hk hc h.linked henter hleave]
    by_cases hpa : p = absorb ∨ q = absorb
    · rw [if_pos hpa, ha.label?_eq_none (hpa.imp (fun hp => hp ▸ hanew) fun hq => hq ▸ hanew)]
    · rw [if_neg hpa]
      by_cases hpk : p = keep
      · -- the kept state is new, and the absorbed one led to no old state either
        have hq : q < a.nextState := by lia
        rw [if_pos hpk, h.label?_across ha (Or.inr ⟨hanew, hq⟩), hpk,
          ha.label?_eq_none (Or.inl hknew)]
      · rw [if_neg hpk, h.label?_eq p q hpq]

end Extends

/-! ### Parts -/

/-- A fragment among the states of `b` that are not in `a`: nothing enters its
entry, nothing leaves its exit, and every new state is on a way from the one to
the other. -/
structure IsPart (a : Automaton) (ends : Fragment) (b : Automaton) : Prop where
  entry_new : a.nextState ≤ ends.entry
  exit_new : a.nextState ≤ ends.exit
  entry_mem : b.contains ends.entry = true
  exit_mem : b.contains ends.exit = true
  entry_ne_exit : ends.entry ≠ ends.exit
  label?_entry : ∀ x, b.label? x ends.entry = none
  label?_exit : ∀ y, b.label? ends.exit y = none
  reaches : ∀ x, a.nextState ≤ x → b.contains x = true →
    b.Reaches ends.entry x ∧ b.Reaches x ends.exit

/-- The labels of new transitions are single operands of some kind. -/
def Carries (P : Operand → Prop) (a b : Automaton) : Prop :=
  ∀ p q label, a.nextState ≤ p → b.label? p q = some label → ∃ o, P o ∧ o.print = label

/-- What building the fragment of an expression makes of an automaton. -/
structure Builds (e : Regex) (a : Automaton) (ends : Fragment) (b : Automaton) : Prop
    extends Extends a b, IsPart a ends b where
  carries : Carries (fun o => e.WellFormed → o.Proper) a b

theorem Carries.imp {P Q : Operand → Prop} (h : Carries P a b) (hPQ : ∀ o, P o → Q o) :
    Carries Q a b := by
  intro p q label hp hl
  obtain ⟨o, ho, hlabel⟩ := h p q label hp hl
  exact ⟨o, hPQ o ho, hlabel⟩

/-- One part after another leaves labels of the same kind. -/
theorem Carries.trans {P : Operand → Prop} (h : Carries P a b) (h' : Carries P b c)
    (hc : Extends b c) : Carries P a c := by
  intro p q label hp hl
  -- the second part leaves the transitions of the first one alone
  rcases Nat.lt_or_ge p b.nextState with hlt | hge
  · rw [hc.label?_eq p q (Or.inl hlt)] at hl
    exact h p q label hp hl
  · exact h' p q label hge hl

/-! ### Putting two new states around parts -/

/-- Transitions among the states that `b` has beyond those of `a`, and two new
ones: they may leave the first of the two, and enter the second one. -/
def Around (a b : Automaton) (ws : List Rewrite) : Prop :=
  ∀ w ∈ ws, (w.source = b.nextState ∨ a.nextState ≤ w.source ∧ b.contains w.source = true) ∧
    (w.target = b.nextState + 1 ∨ a.nextState ≤ w.target ∧ b.contains w.target = true)

section Around

variable (hws : Around a b ws)
include hws

theorem contains_of_around :
    ∀ w ∈ ws, b.addEnds.2.contains w.source = true ∧ b.addEnds.2.contains w.target = true := by
  intro w hw
  obtain ⟨h₁, h₂⟩ := hws w hw
  rw [contains_addEnds, contains_addEnds]
  exact ⟨h₁.imp id fun h => Or.inr h.2, Or.inr (h₂.imp id And.right)⟩

theorem label?_around (x y : State) :
    (b.addEnds.2.write ws).label? x y = (written? ws x y).or (b.label? x y) := by
  rw [label?_write (contains_of_around hws), label?_addEnds]

theorem leads_around (x y : State) :
    (b.addEnds.2.write ws).Leads x y ↔ (∃ label, ⟨x, y, label⟩ ∈ ws) ∨ b.Leads x y := by
  rw [Leads, label?_around hws]
  rcases hw : written? ws x y with _ | label
  · rw [Option.none_or]
    refine ⟨Or.inr, fun h => h.resolve_left ?_⟩
    rintro ⟨label, hmem⟩
    exact written?_eq_none_iff.1 hw _ hmem ⟨rfl, rfl⟩
  · rw [Option.some_or]
    exact ⟨fun _ => Or.inl ⟨label, mem_of_written? hw⟩, fun _ => ⟨label, rfl⟩⟩

theorem reaches_around (hxy : b.Reaches x y) : (b.addEnds.2.write ws).Reaches x y :=
  hxy.mono fun x y hl => (leads_around hws x y).2 (Or.inr hl)

theorem Extends.around (hb : Extends a b) : Extends a (b.addEnds.2.write ws) := by
  refine hb.addEnds.write (contains_of_around hws) fun w hw => ?_
  obtain ⟨h₁, h₂⟩ := hws w hw
  have hle := hb.nextState_le
  constructor
  · rcases h₁ with h₁ | h₁
    · rw [h₁]
      exact hle
    · exact h₁.1
  · rcases h₂ with h₂ | h₂
    · rw [h₂]
      exact Nat.le_succ_of_le hle
    · exact h₂.1

theorem Carries.around {P : Operand → Prop} (h : Carries P a b)
    (hP : ∀ w ∈ ws, ∃ o, P o ∧ o.print = w.label) : Carries P a (b.addEnds.2.write ws) := by
  intro p q label hp hl
  rw [label?_around hws, Option.or_eq_some_iff] at hl
  rcases hl with hl | ⟨-, hl⟩
  · exact hP _ (mem_of_written? hl)
  · exact h p q label hp hl

/-- Two new states are the ends of a part, if every state between is on a way
from the one to the other. -/
theorem IsPart.around (hb : Extends a b)
    (hends : (b.addEnds.2.write ws).Reaches b.nextState (b.nextState + 1))
    (hreaches : ∀ x, a.nextState ≤ x → b.contains x = true →
      (b.addEnds.2.write ws).Reaches b.nextState x ∧
        (b.addEnds.2.write ws).Reaches x (b.nextState + 1)) :
    IsPart a b.addEnds.1 (b.addEnds.2.write ws) where
  entry_new := hb.nextState_le
  exit_new := Nat.le_succ_of_le hb.nextState_le
  entry_mem := by
    rw [contains_write, contains_addEnds]
    exact Or.inl rfl
  exit_mem := by
    rw [contains_write, contains_addEnds]
    exact Or.inr (Or.inl rfl)
  entry_ne_exit := Nat.ne_of_lt (Nat.lt_succ_self _)
  label?_entry x := by
    have hnone : written? ws x b.nextState = none := by
      rw [written?_eq_none_iff]
      rintro w hw ⟨-, ht⟩
      rcases (hws w hw).2 with h | h
      · exact absurd (ht.symm.trans h) (Nat.ne_of_lt (Nat.lt_succ_self _))
      · exact absurd (lt_nextState h.2) (Nat.not_lt.2 (Nat.le_of_eq ht.symm))
    show (b.addEnds.2.write ws).label? x b.nextState = none
    rw [label?_around hws, hnone, Option.none_or]
    exact hb.linked.label?_eq_none (Or.inr (Nat.le_refl _))
  label?_exit y := by
    have hnone : written? ws (b.nextState + 1) y = none := by
      rw [written?_eq_none_iff]
      rintro w hw ⟨hs, -⟩
      rcases (hws w hw).1 with h | h
      · exact absurd (h.symm.trans hs) (Nat.ne_of_lt (Nat.lt_succ_self _))
      · exact absurd (lt_nextState h.2) (Nat.not_lt.2 (hs ▸ Nat.le_succ _))
    show (b.addEnds.2.write ws).label? (b.nextState + 1) y = none
    rw [label?_around hws, hnone, Option.none_or]
    exact hb.linked.label?_eq_none (Or.inl (Nat.le_succ _))
  reaches x hx hc := by
    rw [contains_write, contains_addEnds] at hc
    rcases hc with rfl | rfl | hc
    · exact ⟨.refl, hends⟩
    · exact ⟨hends, .refl⟩
    · exact hreaches x hx hc

/-- Where one of the new states is an end of each transition, or nothing leaves
the state where it starts, nothing is written over. -/
theorem fits_of_around (hb : b.WellLinked)
    (hdistinct : (ws.map fun w => (w.source, w.target)).Nodup)
    (hends : ∀ w ∈ ws, w.source = b.nextState ∨ w.target = b.nextState + 1 ∨
      ∀ y, b.label? w.source y = none) : Fits b.addEnds.2 ws := by
  refine ⟨contains_of_around hws, fun w hw => ?_, hdistinct⟩
  rw [label?_addEnds]
  rcases hends w hw with h | h | h
  · exact hb.label?_eq_none (Or.inl (Nat.le_of_eq h.symm))
  · exact hb.label?_eq_none (Or.inr (Nat.le_of_succ_le (Nat.le_of_eq h.symm)))
  · exact h w.target

end Around

theorem around_operand (a : Automaton) (o : Operand) :
    Around a a [⟨a.addEnds.1.entry, a.addEnds.1.exit, o.print⟩] := by
  intro w hw
  rw [List.mem_singleton.1 hw]
  exact ⟨Or.inl rfl, Or.inl rfl⟩

theorem fits_operand (h : a.WellLinked) (o : Operand) :
    Fits a.addEnds.2 [⟨a.addEnds.1.entry, a.addEnds.1.exit, o.print⟩] := by
  refine fits_of_around (around_operand a o) h (List.nodup_singleton _) fun w hw => ?_
  rw [List.mem_singleton.1 hw]
  exact Or.inl rfl

theorem builds_operand (h : a.WellLinked) (o : Operand) :
    Builds (.operand o) a a.addEnds.1
      (a.addEnds.2.write [⟨a.addEnds.1.entry, a.addEnds.1.exit, o.print⟩]) := by
  have hws := around_operand a o
  have hnone : Carries (fun o' => (Regex.operand o).WellFormed → o'.Proper) a a := by
    intro p q label hp hl
    rw [h.label?_eq_none (Or.inl hp)] at hl
    simp at hl
  refine ⟨(Extends.refl h).around hws, IsPart.around hws (Extends.refl h) ?_ ?_,
    hnone.around hws ?_⟩
  · exact .single ((leads_around hws _ _).2 (Or.inl ⟨o.print, List.mem_cons_self⟩))
  · intro x hx hc
    exact absurd (lt_nextState hc) (Nat.not_lt.2 hx)
  · intro w hw
    rw [List.mem_singleton.1 hw]
    exact ⟨o, id, rfl⟩

section Star

variable {inner : Fragment} (h : Builds e a inner b)
include h

theorem around_star : Around a b (joins (starJoins inner b.addEnds.1)) := by
  simp only [Around, joins, starJoins, List.map_cons, List.map_nil, List.forall_mem_cons]
  refine ⟨⟨Or.inl rfl, Or.inr ⟨h.entry_new, h.entry_mem⟩⟩,
    ⟨Or.inr ⟨h.exit_new, h.exit_mem⟩, Or.inl rfl⟩,
    ⟨Or.inr ⟨h.exit_new, h.exit_mem⟩, Or.inr ⟨h.entry_new, h.entry_mem⟩⟩,
    ⟨Or.inl rfl, Or.inl rfl⟩, ?_⟩
  intro w hw
  simp at hw

theorem fits_star : Fits b.addEnds.2 (joins (starJoins inner b.addEnds.1)) := by
  have hentry := lt_nextState h.entry_mem
  have hexit := lt_nextState h.exit_mem
  refine fits_of_around (around_star h) h.linked ?_ ?_
  · have hm : inner.exit ≠ b.nextState := Nat.ne_of_lt hexit
    have hn : inner.entry ≠ b.nextState + 1 := Nat.ne_of_lt (Nat.lt_succ_of_lt hentry)
    simp [joins, starJoins, addEnds, hm, hm.symm, hn, hn.symm]
  · simp only [joins, starJoins, List.map_cons, List.map_nil, List.forall_mem_cons]
    refine ⟨Or.inl rfl, Or.inr (Or.inl rfl), Or.inr (Or.inr h.label?_exit), Or.inl rfl, ?_⟩
    intro w hw
    simp at hw

theorem builds_star :
    Builds (.star e) a b.addEnds.1
      (b.addEnds.2.write (joins (starJoins inner b.addEnds.1))) := by
  have hws := around_star h
  -- every state of the part is between its ends, and these are joined to the new ones
  have hjoin : ∀ x y, (x, y) ∈ starJoins inner b.addEnds.1 →
      (b.addEnds.2.write (joins (starJoins inner b.addEnds.1))).Reaches x y := fun x y hxy =>
    .single ((leads_around hws x y).2 (Or.inl ⟨_, mem_joins.2 ⟨hxy, rfl⟩⟩))
  refine ⟨h.toExtends.around hws, IsPart.around hws h.toExtends ?_ ?_, h.carries.around hws ?_⟩
  · exact hjoin _ _ (by simp [starJoins, addEnds])
  · intro x hx hc
    obtain ⟨hentry, hexit⟩ := h.reaches x hx hc
    exact ⟨(hjoin _ _ (by simp [starJoins, addEnds])).trans (reaches_around hws hentry),
      (reaches_around hws hexit).trans (hjoin _ _ (by simp [starJoins, addEnds]))⟩
  · intro w hw
    obtain ⟨j, -, rfl⟩ := List.mem_map.1 hw
    exact ⟨.emptyString, fun _ => trivial, rfl⟩

end Star

/-! ### Two parts -/

theorem Extends.contains_of_contains (h : Extends b c) (hx : b.contains x = true) :
    c.contains x = true := by
  rw [h.contains_eq x (lt_nextState hx), hx]

theorem Extends.reaches_of_reaches (h : Extends b c) (hb : b.WellLinked)
    (hxy : b.Reaches x y) : c.Reaches x y := by
  refine hxy.mono fun x y hl => ?_
  obtain ⟨label, hl⟩ := hl
  refine ⟨label, ?_⟩
  rw [h.label?_eq x y (Or.inl (lt_nextState (hb.contains_of_label? hl).1)), hl]

section Parts

variable {left right : Fragment} (hl : Builds l a left b) (hr : Builds r b right c)
include hl hr

/-- Every new state belongs to one of the two parts. -/
theorem reaches_of_parts (hx : a.nextState ≤ x) (hc : c.contains x = true) :
    c.Reaches left.entry x ∧ c.Reaches x left.exit ∨
      c.Reaches right.entry x ∧ c.Reaches x right.exit := by
  rcases Nat.lt_or_ge x b.nextState with hlt | hge
  · rw [hr.contains_eq x hlt] at hc
    obtain ⟨hentry, hexit⟩ := hl.reaches x hx hc
    exact Or.inl ⟨hr.reaches_of_reaches hl.linked hentry, hr.reaches_of_reaches hl.linked hexit⟩
  · exact Or.inr (hr.reaches x hge hc)

theorem around_union : Around a c (joins (unionJoins left right c.addEnds.1)) := by
  have hleft : (a.nextState ≤ left.entry ∧ c.contains left.entry = true) ∧
      a.nextState ≤ left.exit ∧ c.contains left.exit = true :=
    ⟨⟨hl.entry_new, hr.contains_of_contains hl.entry_mem⟩,
      hl.exit_new, hr.contains_of_contains hl.exit_mem⟩
  have hright : (a.nextState ≤ right.entry ∧ c.contains right.entry = true) ∧
      a.nextState ≤ right.exit ∧ c.contains right.exit = true :=
    ⟨⟨Nat.le_trans hl.nextState_le hr.entry_new, hr.entry_mem⟩,
      Nat.le_trans hl.nextState_le hr.exit_new, hr.exit_mem⟩
  simp only [Around, joins, unionJoins, List.map_cons, List.map_nil, List.forall_mem_cons]
  refine ⟨⟨Or.inl rfl, Or.inr hleft.1⟩, ⟨Or.inl rfl, Or.inr hright.1⟩,
    ⟨Or.inr hleft.2, Or.inl rfl⟩, ⟨Or.inr hright.2, Or.inl rfl⟩, ?_⟩
  intro w hw
  simp at hw

theorem fits_union : Fits c.addEnds.2 (joins (unionJoins left right c.addEnds.1)) := by
  have hlentry := lt_nextState hl.entry_mem
  have hlexit := lt_nextState hl.exit_mem
  refine fits_of_around (around_union hl hr) hr.linked ?_ ?_
  · have hentry : left.entry ≠ right.entry :=
      Nat.ne_of_lt (Nat.lt_of_lt_of_le hlentry hr.entry_new)
    have hexit : left.exit ≠ right.exit :=
      Nat.ne_of_lt (Nat.lt_of_lt_of_le hlexit hr.exit_new)
    have hnew : left.exit ≠ c.nextState ∧ right.exit ≠ c.nextState :=
      ⟨Nat.ne_of_lt (Nat.lt_of_lt_of_le hlexit hr.nextState_le),
        Nat.ne_of_lt (lt_nextState hr.exit_mem)⟩
    simp [joins, unionJoins, addEnds, hentry, hexit, hnew.1.symm, hnew.2.symm]
  · simp only [joins, unionJoins, List.map_cons, List.map_nil, List.forall_mem_cons]
    refine ⟨Or.inl rfl, Or.inl rfl, Or.inr (Or.inl rfl), Or.inr (Or.inl rfl), ?_⟩
    intro w hw
    simp at hw

theorem builds_union :
    Builds (.union l r) a c.addEnds.1
      (c.addEnds.2.write (joins (unionJoins left right c.addEnds.1))) := by
  have hc : Extends a c := hl.toExtends.trans hr.toExtends
  have hws := around_union hl hr
  have hjoin : ∀ x y, (x, y) ∈ unionJoins left right c.addEnds.1 →
      (c.addEnds.2.write (joins (unionJoins left right c.addEnds.1))).Reaches x y := fun x y hxy =>
    .single ((leads_around hws x y).2 (Or.inl ⟨_, mem_joins.2 ⟨hxy, rfl⟩⟩))
  have hcarries : Carries (fun o => (Regex.union l r).WellFormed → o.Proper) a c :=
    (hl.carries.imp fun o ho h => ho h.1).trans (hr.carries.imp fun o ho h => ho h.2)
      hr.toExtends
  refine ⟨hc.around hws, IsPart.around hws hc ?_ ?_, hcarries.around hws ?_⟩
  · refine (hjoin c.nextState left.entry (by simp [unionJoins, addEnds])).trans ?_
    refine (reaches_around hws (hr.reaches_of_reaches hl.linked ?_)).trans
      (hjoin left.exit _ (by simp [unionJoins, addEnds]))
    exact (hl.reaches left.exit hl.exit_new hl.exit_mem).1
  · -- a new state belongs to one of the parts, and both are joined to the ends
    intro x hx hcx
    rcases reaches_of_parts hl hr hx hcx with ⟨hentry, hexit⟩ | ⟨hentry, hexit⟩
    · exact ⟨(hjoin _ left.entry (by simp [unionJoins, addEnds])).trans
        (reaches_around hws hentry), (reaches_around hws hexit).trans
        (hjoin left.exit _ (by simp [unionJoins, addEnds]))⟩
    · exact ⟨(hjoin _ right.entry (by simp [unionJoins, addEnds])).trans
        (reaches_around hws hentry), (reaches_around hws hexit).trans
        (hjoin right.exit _ (by simp [unionJoins, addEnds]))⟩
  · intro w hw
    obtain ⟨j, -, rfl⟩ := List.mem_map.1 hw
    exact ⟨.emptyString, fun _ => trivial, rfl⟩

/-- The exit of the first part can absorb the entry of the second one. -/
theorem meet_of_parts :
    left.exit ≠ right.entry ∧ c.contains left.exit = true ∧ c.contains right.entry = true ∧
      (∀ y, c.label? left.exit y = none) ∧ ∀ x, c.label? x right.entry = none := by
  have hlt := lt_nextState hl.exit_mem
  refine ⟨?_, hr.contains_of_contains hl.exit_mem, hr.entry_mem, fun y => ?_, hr.label?_entry⟩
  · exact Nat.ne_of_lt (Nat.lt_of_lt_of_le hlt hr.entry_new)
  · rw [hr.label?_eq left.exit y (Or.inl hlt), hl.label?_exit]

theorem label?_merge_parts (x y : State) :
    (c.merge left.exit right.entry).label? x y =
      if x = right.entry ∨ y = right.entry then none
      else if x = left.exit then c.label? right.entry y else c.label? x y := by
  obtain ⟨hne, hk, hc, hleave, henter⟩ := meet_of_parts hl hr
  exact label?_merge hne hk hc hr.linked henter hleave x y

/-- A way leads on with the state that is kept in place of the absorbed one. -/
theorem reaches_merge_parts (hxy : c.Reaches x y) (hy : y ≠ right.entry) :
    (c.merge left.exit right.entry).Reaches (if x = right.entry then left.exit else x) y := by
  obtain ⟨hne, -, -, hleave, henter⟩ := meet_of_parts hl hr
  have key : (c.merge left.exit right.entry).Reaches (if x = right.entry then left.exit else x)
      (if y = right.entry then left.exit else y) := by
    refine Relation.ReflTransGen.lift (fun x => if x = right.entry then left.exit else x)
      (fun x y hlead => ?_) _ _ hxy
    obtain ⟨label, hlabel⟩ := hlead
    -- no transition enters the absorbed state or leaves the kept one
    have hy : y ≠ right.entry := by
      rintro rfl
      rw [henter] at hlabel
      simp at hlabel
    have hx : x ≠ left.exit := by
      rintro rfl
      rw [hleave] at hlabel
      simp at hlabel
    refine ⟨label, ?_⟩
    dsimp only
    rw [label?_merge_parts hl hr, if_neg hy]
    by_cases hxe : x = right.entry
    · rw [if_pos hxe, if_neg (not_or.2 ⟨hne, hy⟩), if_pos rfl, ← hxe, hlabel]
    · rw [if_neg hxe, if_neg (not_or.2 ⟨hxe, hy⟩), if_neg hx, hlabel]
  rwa [if_neg hy] at key

theorem builds_concat (ha : a.WellLinked) :
    Builds (.concat l r) a ⟨left.entry, right.exit⟩ (c.merge left.exit right.entry) := by
  obtain ⟨hne, hk, hc, hleave, henter⟩ := meet_of_parts hl hr
  have hac : Extends a c := hl.toExtends.trans hr.toExtends
  have hrentry : a.nextState ≤ right.entry := Nat.le_trans hl.nextState_le hr.entry_new
  have hlentry := lt_nextState hl.entry_mem
  have hlexit := lt_nextState hl.exit_mem
  have hentry : left.entry ≠ right.entry :=
    Nat.ne_of_lt (Nat.lt_of_lt_of_le hlentry hr.entry_new)
  have hexit : right.exit ≠ left.exit :=
    Nat.ne_of_gt (Nat.lt_of_lt_of_le hlexit hr.exit_new)
  -- the two ways that every other way is put together from
  have hfirst : (c.merge left.exit right.entry).Reaches left.entry left.exit := by
    have h := hl.reaches left.exit hl.exit_new hl.exit_mem
    have h := reaches_merge_parts hl hr (hr.reaches_of_reaches hl.linked h.1) hne
    rwa [if_neg hentry] at h
  have hsecond : (c.merge left.exit right.entry).Reaches left.exit right.exit := by
    have h := hr.reaches right.exit hr.exit_new hr.exit_mem
    have h := reaches_merge_parts hl hr h.1 hr.entry_ne_exit.symm
    rwa [if_pos rfl] at h
  have hcarries : Carries (fun o => (Regex.concat l r).WellFormed → o.Proper) a c :=
    (hl.carries.imp fun o ho h => ho h.1).trans (hr.carries.imp fun o ho h => ho h.2)
      hr.toExtends
  refine ⟨hac.merge ha hne hk hc hleave henter hl.exit_new hrentry, ?_, ?_⟩
  · refine ⟨hl.entry_new, Nat.le_trans hl.nextState_le hr.exit_new, ?_, ?_, ?_, ?_, ?_, ?_⟩
    · rw [contains_merge hne hk hc, if_neg hentry]
      exact hr.contains_of_contains hl.entry_mem
    · rw [contains_merge hne hk hc, if_neg hr.entry_ne_exit.symm]
      exact hr.exit_mem
    · exact Nat.ne_of_lt (Nat.lt_of_lt_of_le hlentry hr.exit_new)
    · intro x
      rw [label?_merge_parts hl hr]
      split
      · rfl
      · split
        · exact hr.label?_across hl.linked (Or.inr ⟨hr.entry_new, hlentry⟩)
        · rw [hr.label?_eq x left.entry (Or.inr hlentry), hl.label?_entry]
    · intro y
      rw [label?_merge_parts hl hr, if_neg hexit]
      split
      · rfl
      · exact hr.label?_exit y
    · intro x hx hcx
      rw [contains_merge hne hk hc] at hcx
      split at hcx
      · simp at hcx
      · rename_i hxe
        -- from the first part on through the second one, and the other way round
        rcases reaches_of_parts hl hr hx hcx with ⟨hto, hfrom⟩ | ⟨hto, hfrom⟩
        · have hto := reaches_merge_parts hl hr hto hxe
          have hfrom := reaches_merge_parts hl hr hfrom hne
          rw [if_neg hentry] at hto
          rw [if_neg hxe] at hfrom
          exact ⟨hto, hfrom.trans hsecond⟩
        · have hto := reaches_merge_parts hl hr hto hxe
          have hfrom := reaches_merge_parts hl hr hfrom hr.entry_ne_exit.symm
          rw [if_pos rfl] at hto
          rw [if_neg hxe] at hfrom
          exact ⟨hfirst.trans hto, hfrom⟩
  · intro p q label hp hlabel
    rw [label?_merge_parts hl hr] at hlabel
    split at hlabel
    · simp at hlabel
    · split at hlabel
      · exact hcarries _ _ label hrentry hlabel
      · exact hcarries _ _ label hp hlabel

end Parts

/-- What is built for an expression is a part that the automaton has grown by. -/
theorem Built.builds (h : Built e a ends b) (ha : a.WellLinked) : Builds e a ends b := by
  induction h with
  | operand o a => exact builds_operand ha o
  | star _ ih => exact builds_star (ih ha)
  | concat _ _ ihl ihr =>
    have hl := ihl ha
    exact builds_concat hl (ihr hl.linked) ha
  | union _ _ ihl ihr =>
    have hl := ihl ha
    exact builds_union hl (ihr hl.linked)

/-- Building the fragment of an expression adds a part to an automaton. -/
theorem builds_buildInto (h : a.WellLinked) (e : Regex) :
    Builds e a (buildInto e a).1 (buildInto e a).2 := (built_buildInto e a).builds h

/-! ### The automaton of an expression -/

/-- The automaton of an expression is its fragment, with the roles at its
ends. -/
theorem ofRegex_eq_roles (e : Regex) :
    ofRegex e = { (buildInto e .empty).2 with
      initial := some (buildInto e .empty).1.entry
      final := some (buildInto e .empty).1.exit } := by
  have h := builds_buildInto wellLinked_empty e
  have hi : (some (buildInto e .empty).1.entry).all (buildInto e .empty).2.contains = true :=
    h.entry_mem
  have hf : (some (buildInto e .empty).1.exit).all
      ((buildInto e .empty).2.setInitial (some (buildInto e .empty).1.entry)).contains = true := by
    rw [setInitial, if_pos hi]
    exact h.exit_mem
  rw [ofRegex_eq, setFinal, if_pos hf, setInitial, if_pos hi]

theorem terminals_ofRegex (e : Regex) :
    (ofRegex e).terminals =
      .ok ((buildInto e .empty).1.entry, (buildInto e .empty).1.exit) := by
  rw [ofRegex_eq_roles]
  exact terminals_eq_ok_iff.2 ⟨rfl, rfl, (builds_buildInto wellLinked_empty e).entry_ne_exit⟩

/-- All states of the automaton of an expression can be reached. -/
theorem isValid_ofRegex (e : Regex) : (ofRegex e).isValid = true := by
  have h := builds_buildInto wellLinked_empty e
  rw [(wellLinked_ofRegex e).isValid_iff, ofRegex_eq_roles]
  refine ⟨_, _, rfl, rfl, fun q hq => ?_⟩
  exact (h.reaches q (Nat.zero_le q) hq).1

/-- The labels of the automaton of an expression are single operands. -/
theorem label?_ofRegex {label : String} (he : e.WellFormed)
    (hl : (ofRegex e).label? p q = some label) : ∃ o : Operand, o.Proper ∧ o.print = label := by
  rw [ofRegex_eq_roles] at hl
  obtain ⟨o, ho, hlabel⟩ :=
    (builds_buildInto wellLinked_empty e).carries p q label (Nat.zero_le p) hl
  exact ⟨o, ho he, hlabel⟩

end RegexAutomata.Automaton
