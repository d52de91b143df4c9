/-
Eliminating states without reading and writing labels.

`Ways` are an automaton of which only the expressions between its states are
left: for any two states the normal expression of what leads directly from the
one to the other, `∅` where nothing does.  Taking a state out of them
(`Ways.bypass`) is one formula for all pairs of states, with no regard to which
transitions are there, how their labels are spelt and how long they are.

* `ways_eliminateState` — an elimination that succeeds takes the state out of the
  ways of the automaton;
* `Ready.eliminateWithin_cases` — an automaton is turned into an expression if all
  expressions that arise in this manner keep to the limits, and otherwise it is
  answered with one that does not.
-/
import RegexAutomata.Proofs.Conversion
import RegexAutomata.Proofs.Normal

namespace RegexAutomata

/-- For any two states, the expression of what leads directly from the one to
the other. -/
abbrev Ways := State → State → Regex

namespace Ways

variable {m : Ways} {p q r i f : State} {qs : List State} {e : Regex}

/-- Take a state out: what leads through it is put beside what does not. -/
def bypass (m : Ways) (q : State) : Ways := fun p r =>
  if p = q ∨ r = q then .emptySet else Automaton.around (m p r) (m p q) (m q q) (m q r)

/-- The expression of all that leads from one state to another, where there are
no others. -/
def through (m : Ways) (i f : State) : Regex :=
  Automaton.throughTwo (m i i) (m i f) (m f i) (m f f)

/-- The expressions that arise while states are taken out in turn, and the one
that is read off when none of them is left. -/
inductive Arises (i f : State) : List State → Ways → Regex → Prop
  /-- The expression between two states. -/
  | way {qs : List State} {m : Ways} (p r : State) : Arises i f qs m (m p r)
  /-- One that arises when the first of the states is out. -/
  | later {q : State} {qs : List State} {m : Ways} {e : Regex}
    (h : Arises i f qs (m.bypass q) e) : Arises i f (q :: qs) m e
  /-- The one that is read off. -/
  | through (m : Ways) : Arises i f [] m (m.through i f)

theorem bypass_of_ne (hp : p ≠ q) (hr : r ≠ q) :
    m.bypass q p r = Automaton.around (m p r) (m p q) (m q q) (m q r) :=
  if_neg (not_or.2 ⟨hp, hr⟩)

theorem bypass_of_eq (h : p = q ∨ r = q) : m.bypass q p r = .emptySet := if_pos h

end Ways

namespace Automaton

open Regex (Normal)

variable {a b : Automaton} {t : SymbolTable} {p q r i f : State} {e : Regex} {text : String}
  {error : EliminationError} {ws : List Rewrite}

/-! ### The ways of an automaton -/

/-- The expressions on the transitions of an automaton; a label that cannot be
read counts for nothing. -/
def ways (t : SymbolTable) (a : Automaton) : Ways := fun p r =>
  match a.labelRegex t p r with
  | .ok e => e
  | .error _ => .emptySet

theorem ways_eq (h : a.labelRegex t p r = .ok e) : a.ways t p r = e := by
  rw [ways, h]

theorem ways_of_label?_eq_none (h : a.label? p r = none) : a.ways t p r = .emptySet :=
  ways_eq (by rw [labelRegex, h])

/-- The ways between two states depend on nothing but the label. -/
theorem ways_congr (h : b.label? p r = a.label? p r) : b.ways t p r = a.ways t p r := by
  rw [ways, ways, labelRegex, labelRegex, h]

theorem Ready.labelRegex_eq_ways (h : Ready t a) (p r : State) :
    a.labelRegex t p r = .ok (a.ways t p r) := by
  obtain ⟨e, he⟩ := h.labelRegex p r
  rw [he, ways_eq he]

theorem Ready.wellFormed_ways (h : Ready t a) (p r : State) : (a.ways t p r).WellFormed :=
  wellFormed_of_labelRegex (h.labelRegex_eq_ways p r)

/-- A printed operand is read off a label as it is. -/
theorem readLabel_print (t : SymbolTable) {o : Operand} (ho : o.Proper) :
    readLabel t o.print = .ok (.operand o) :=
  readLabel_eq_ok_iff.2 ⟨_, parse_print t ho, rfl⟩

/-- The ways of the automaton of an expression are single operands. -/
theorem writable_ways_ofRegex {e : Regex} (he : e.WellFormed) (t : SymbolTable) (p r : State) :
    ((ofRegex e).ways t p r).Writable t := by
  rcases hl : (ofRegex e).label? p r with _ | label
  · rw [ways_of_label?_eq_none hl]
    exact Regex.writable_operand t .emptySet
  · obtain ⟨o, ho, rfl⟩ := label?_ofRegex he hl
    rw [ways_eq (e := .operand o) (by rw [labelRegex, hl]; exact readLabel_print t ho)]
    exact Regex.writable_operand t o

/-! ### Taking one state out -/

theorem either_emptySet (e : Regex) : e.either .emptySet = e := by
  by_cases h : e = .emptySet
  · rw [Regex.either, if_pos h, h]
  · rw [Regex.either, if_neg h, if_pos (Or.inl rfl)]

theorem emptyString_followedBy (e : Regex) : Regex.followedBy .emptyString e = e := by
  by_cases hset : e = .emptySet
  · rw [hset]
    rfl
  · rw [Regex.followedBy, if_neg (by simp [hset]), if_pos rfl]

theorem followedBy_emptyString (e : Regex) : e.followedBy .emptyString = e := by
  by_cases hset : e = .emptySet
  · rw [hset]
    rfl
  · by_cases hstring : e = .emptyString
    · rw [hstring]
      rfl
    · rw [Regex.followedBy, if_neg (by simp [hset]), if_neg hstring, if_pos rfl]

/-- Where half of a detour is missing, the direct way is all there is. -/
theorem around_of_eq_emptySet {direct into loop out : Regex}
    (h : into = .emptySet ∨ out = .emptySet) : around direct into loop out = direct := by
  have hvia : (into.followedBy loop.repeated).followedBy out = .emptySet := by
    rcases h with rfl | rfl
    · rfl
    · rw [Regex.followedBy, if_pos (Or.inr rfl)]
  rw [around, hvia, either_emptySet]

/-- A detour that was written is the way around the state. -/
theorem Detour.writeLabel_eq_ok {label : String} (h : a.Detour t q ⟨p, r, label⟩) (hp : p ≠ q)
    (hr : r ≠ q) :
    ((a.ways t).bypass q p r).Normal ∧ ((a.ways t).bypass q p r).WellFormed ∧
      writeLabel t ((a.ways t).bypass q p r) = .ok label := by
  obtain ⟨direct, into, loop, out, hd, hi, hl, ho, hwrite⟩ := h
  rw [Ways.bypass_of_ne hp hr, ways_eq hd, ways_eq hi, ways_eq hl, ways_eq ho]
  refine ⟨?_, ?_, hwrite⟩
  · exact normal_around (normal_of_labelRegex hd) (normal_of_labelRegex hi)
      (normal_of_labelRegex hl) (normal_of_labelRegex ho)
  · exact wellFormed_around (wellFormed_of_labelRegex hd) (wellFormed_of_labelRegex hi)
      (wellFormed_of_labelRegex hl) (wellFormed_of_labelRegex ho)

/-- An elimination takes the state out of the ways: what is written is read
again as it was, because nothing can be shortened in it. -/
theorem WellLinked.ways_eliminateState (h : a.WellLinked)
    (hb : a.eliminateState t q = .ok (ws, b)) : b.ways t = (a.ways t).bypass q := by
  funext p r
  by_cases hpr : p = q ∨ r = q
  · rw [Ways.bypass_of_eq hpr]
    exact ways_of_label?_eq_none (by rw [label?_eliminateState h hb, if_pos hpr])
  · obtain ⟨hp, hr⟩ := not_or.1 hpr
    rcases label?_or_detour h hb hp hr with ⟨hlabel, hhalf⟩ | ⟨label, hlabel, hd⟩
    · rw [ways_congr hlabel, Ways.bypass_of_ne hp hr, around_of_eq_emptySet]
      exact hhalf.imp ways_of_label?_eq_none ways_of_label?_eq_none
    · obtain ⟨hnormal, hwf, hwrite⟩ := hd.writeLabel_eq_ok hp hr
      refine ways_eq ?_
      rw [labelRegex, hlabel]
      exact readLabel_eq_ok_iff.2
        ⟨_, ((writeLabel_eq_ok_iff hwf).1 hwrite).2, hnormal.normalize_eq.symm⟩

/-- After an elimination all ways keep to the limits, if they did so before. -/
theorem WellLinked.writable_eliminateState (h : a.WellLinked)
    (hways : ∀ p r, (a.ways t p r).Writable t) (hb : a.eliminateState t q = .ok (ws, b))
    (p r : State) : (b.ways t p r).Writable t := by
  by_cases hpr : p = q ∨ r = q
  · rw [h.ways_eliminateState hb, Ways.bypass_of_eq hpr]
    exact Regex.writable_operand t .emptySet
  · obtain ⟨hp, hr⟩ := not_or.1 hpr
    rcases label?_or_detour h hb hp hr with ⟨hlabel, -⟩ | ⟨label, -, hd⟩
    · rw [ways_congr hlabel]
      exact hways p r
    · obtain ⟨-, hwf, hwrite⟩ := hd.writeLabel_eq_ok hp hr
      rw [h.ways_eliminateState hb]
      exact writable_of_writeLabel hwf hwrite

/-- If a state cannot be eliminated, one of the ways without it exceeds a
limit. -/
theorem Ready.unwritable_of_eliminateState (h : Ready t a) (hq : q ∈ a.innerStates)
    (herror : a.eliminateState t q = .error error) :
    ∃ p r, ¬ ((a.ways t).bypass q p r).Writable t ∧
      error = limitError t ((a.ways t).bypass q p r) := by
  obtain ⟨p, hp, r, hr, direct, into, loop, out, hd, hi, hl, ho, hwrite⟩ :=
    h.error_of_eliminateState hq herror
  have hpq := ((mem_sources h.linked).1 hp).1
  have hrq := (mem_targets.1 hr).1
  have hwf := wellFormed_around (wellFormed_of_labelRegex hd) (wellFormed_of_labelRegex hi)
    (wellFormed_of_labelRegex hl) (wellFormed_of_labelRegex ho)
  refine ⟨p, r, ?_⟩
  rw [Ways.bypass_of_ne hpq hrq, ways_eq hd, ways_eq hi, ways_eq hl, ways_eq ho]
  exact (writeLabel_eq_error_iff hwf).1 hwrite

/-! ### Taking all states out -/

theorem Ready.finalRegex_eq_writeLabel (h : Ready t a) (hif : a.terminals = .ok (i, f))
    (hinner : a.innerStates = []) :
    a.finalRegex t = writeLabel t ((a.ways t).through i f) :=
  finalRegex_eq hif ((h.linked.isReduced_iff hif).2 hinner) (h.labelRegex_eq_ways i i)
    (h.labelRegex_eq_ways i f) (h.labelRegex_eq_ways f i) (h.labelRegex_eq_ways f f)

theorem Ready.finalRegex_cases (h : Ready t a) (hif : a.terminals = .ok (i, f))
    (hways : ∀ p r, (a.ways t p r).Writable t) (hinner : a.innerStates = []) :
    ((∃ text, a.finalRegex t = .ok text) ∧
        ∀ e, Ways.Arises i f [] (a.ways t) e → e.Writable t) ∨
      ∃ e, Ways.Arises i f [] (a.ways t) e ∧ ¬ e.Writable t ∧
        a.finalRegex t = .error (limitError t e) := by
  have hwf : ((a.ways t).through i f).WellFormed :=
    wellFormed_throughTwo (h.wellFormed_ways i i) (h.wellFormed_ways i f)
      (h.wellFormed_ways f i) (h.wellFormed_ways f f)
  rw [h.finalRegex_eq_writeLabel hif hinner, writeLabel_eq hwf]
  by_cases hw : ((a.ways t).through i f).Writable t
  · rw [if_pos hw]
    refine Or.inl ⟨⟨_, rfl⟩, fun e he => ?_⟩
    cases he with
    | way p r => exact hways p r
    | through => exact hw
  · rw [if_neg hw]
    exact Or.inr ⟨_, .through _, hw, rfl⟩

/-- Either the elimination comes to its end, and all expressions that arise keep to
the limits, or it is answered with one that does not. -/
theorem Ready.eliminateWithin_cases (h : Ready t a) (hif : a.terminals = .ok (i, f))
    (hways : ∀ p r, (a.ways t p r).Writable t) {rounds : Nat}
    (hlen : a.innerStates.length ≤ rounds) :
    ((∃ text, eliminateWithin t rounds a = .ok text) ∧
        ∀ e, Ways.Arises i f a.innerStates (a.ways t) e → e.Writable t) ∨
      ∃ e, Ways.Arises i f a.innerStates (a.ways t) e ∧ ¬ e.Writable t ∧
        eliminateWithin t rounds a = .error (limitError t e) := by
  -- on the list of inner states: each elimination leaves an automaton that is ready
  obtain ⟨qs, hqs⟩ : ∃ qs, a.innerStates = qs := ⟨_, rfl⟩
  rw [hqs] at hlen ⊢
  induction qs generalizing a rounds with
  | nil =>
    rw [eliminateWithin_of_nil hqs]
    exact h.finalRegex_cases hif hways hqs
  | cons q qs ih =>
    obtain ⟨rounds, rfl⟩ := Nat.exists_eq_add_of_lt (Nat.lt_of_lt_of_le (Nat.succ_pos _) hlen)
    rw [Nat.zero_add, eliminateWithin_of_cons hqs]
    rcases hb : a.eliminateState t q with error | ⟨ws, b⟩
    · have hq : q ∈ a.innerStates := hqs ▸ List.mem_cons_self
      obtain ⟨p, r, hw, rfl⟩ := h.unwritable_of_eliminateState hq hb
      exact Or.inr ⟨_, .later (.way p r), hw, rfl⟩
    · have hless : qs.length ≤ rounds := by
        rw [List.length_cons] at hlen
        omega
      have hrest := ih (h.eliminateState hb) ((terminals_eliminateState hb).trans hif)
        (h.linked.writable_eliminateState hways hb) hless (innerStates_of_cons hqs hb)
      rw [h.linked.ways_eliminateState hb] at hrest
      rcases hrest with ⟨htext, hall⟩ | ⟨e, he, hw, herror⟩
      · refine Or.inl ⟨htext, fun e he => ?_⟩
        cases he with
        | way p r => exact hways p r
        | later he => exact hall e he
      · exact Or.inr ⟨e, .later he, hw, herror⟩

end Automaton

end RegexAutomata
