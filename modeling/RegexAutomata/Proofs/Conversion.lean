/-
From an expression to its automaton and back.

An automaton is `Ready` if nothing but the limits on a written label can keep
it from being turned into an expression.  The automaton of an expression is
ready (`ready_ofRegex`), and stays so whenever a state is eliminated
(`Ready.eliminateState`); as every elimination takes a state away, only the
initial and the final one are left in the end, and the expression on them
stands for the walks between them (`language_of_finalRegex`).

* `language_of_eliminate` — whatever comes out stands for the language of the
  automaton that was put in;
* `language_of_conversion` — an expression that is turned into its automaton
  and back keeps its language, and nothing but a limit is in the way.
-/
import RegexAutomata.Proofs.Assertions
import RegexAutomata.Proofs.Thompson

namespace RegexAutomata.Automaton

open Computability

variable {a b : Automaton} {t : SymbolTable} {p q i f : State} {e : Regex} {text : String}
  {error : EliminationError} {ws : List Rewrite}

/-! ### The states that are left -/

theorem states_eliminateState (hb : a.eliminateState t q = .ok (ws, b)) :
    b.states = a.states.filter fun x => x ≠ q := by
  obtain ⟨-, -, rfl⟩ := eliminateState_eq_ok_iff.1 hb
  rw [states_removeState, states_write]

theorem mem_innerStates : q ∈ a.innerStates ↔ a.contains q = true ∧ ¬ a.isTerminal q = true := by
  rw [innerStates, List.mem_filter, mem_states]
  simp

/-- The roles stay where they are, so just the one inner state is missing. -/
theorem innerStates_eliminateState (hb : a.eliminateState t q = .ok (ws, b)) :
    b.innerStates = a.innerStates.filter fun x => x ≠ q := by
  obtain ⟨hinitial, hfinal⟩ := roles_eliminateState hb
  have hterminal : ∀ x, b.isTerminal x = a.isTerminal x := fun x => by
    rw [isTerminal, isTerminal, hinitial, hfinal]
  rw [innerStates, innerStates, states_eliminateState hb, List.filter_filter,
    List.filter_filter]
  refine List.filter_congr fun x _ => ?_
  rw [hterminal, Bool.and_comm]

theorem nodup_innerStates (a : Automaton) : a.innerStates.Nodup := a.nodup_states.filter _

/-- When the first of the inner states is out, the others are left. -/
theorem innerStates_of_cons {qs : List State} (hqs : a.innerStates = q :: qs)
    (hb : a.eliminateState t q = .ok (ws, b)) : b.innerStates = qs := by
  have hnodup := a.nodup_innerStates
  rw [hqs, List.nodup_cons] at hnodup
  rw [innerStates_eliminateState hb, hqs, List.filter_cons_of_neg (by simp),
    List.filter_eq_self]
  intro x hx
  have hne : x ≠ q := fun hxq => hnodup.1 (hxq ▸ hx)
  simp [hne]

/-- Every elimination takes one inner state away. -/
theorem length_innerStates_eliminateState (hq : q ∈ a.innerStates)
    (hb : a.eliminateState t q = .ok (ws, b)) :
    b.innerStates.length + 1 = a.innerStates.length := by
  rw [innerStates_eliminateState hb]
  exact length_filter_ne a.nodup_innerStates hq

/-- With enough rounds, more rounds make no difference. -/
theorem eliminateWithin_eq {rounds : Nat} (h : a.innerStates.length ≤ rounds) (more : Nat) :
    eliminateWithin t (rounds + more) a = eliminateWithin t rounds a := by
  induction rounds generalizing a with
  | zero =>
    have hnil : a.innerStates = [] := List.length_eq_zero_iff.1 (Nat.le_zero.1 h)
    cases more with
    | zero => rfl
    | succ more =>
      rw [Nat.zero_add, eliminateWithin, eliminateWithin, hnil]
      rfl
  | succ rounds ih =>
    rw [Nat.succ_add, eliminateWithin, eliminateWithin]
    rcases hhead : a.innerStates.head? with _ | q
    · rfl
    · have hq : q ∈ a.innerStates := List.mem_of_head? hhead
      show (a.eliminateState t q >>= _) = (a.eliminateState t q >>= _)
      rcases hb : a.eliminateState t q with error | ⟨ws, b⟩
      · rfl
      · have hlen := length_innerStates_eliminateState hq hb
        exact ih (by omega)

theorem length_innerStates_le (a : Automaton) : a.innerStates.length ≤ a.size :=
  List.length_filter_le _ _

/-- The bound on the rounds of an elimination is never reached before it has
come to its end. -/
theorem eliminateWithin_of_size_le {rounds : Nat} (h : a.size ≤ rounds) :
    eliminateWithin t rounds a = a.eliminate t := by
  rw [eliminate, ← eliminateWithin_eq (length_innerStates_le a) (rounds - a.size),
    Nat.add_sub_cancel' h]

theorem eliminateWithin_of_nil (hqs : a.innerStates = []) (rounds : Nat) :
    eliminateWithin t rounds a = a.finalRegex t := by
  cases rounds with
  | zero => rfl
  | succ rounds =>
    rw [eliminateWithin, hqs]
    rfl

theorem eliminateWithin_of_cons {qs : List State} (hqs : a.innerStates = q :: qs)
    (rounds : Nat) :
    eliminateWithin t (rounds + 1) a =
      a.eliminateState t q >>= fun b => eliminateWithin t rounds b.2 := by
  rw [eliminateWithin, hqs]
  rfl

/-- Looking for the lowest inner state again in every round comes to the same as
going through the inner states in turn. -/
theorem eliminateWithin_eq_eliminateEach {rounds : Nat} (h : a.innerStates.length ≤ rounds) :
    eliminateWithin t rounds a =
      match (eliminateEach t a.innerStates a).failure with
      | none => (eliminateEach t a.innerStates a).rest.finalRegex t
      | some (_, error) => .error error := by
  -- on the list of inner states: the next round starts from what is left of it
  obtain ⟨qs, hqs⟩ : ∃ qs, a.innerStates = qs := ⟨_, rfl⟩
  rw [hqs] at h ⊢
  induction qs generalizing a rounds with
  | nil => exact eliminateWithin_of_nil hqs rounds
  | cons q qs ih =>
    obtain ⟨rounds, rfl⟩ := Nat.exists_eq_add_of_lt (Nat.lt_of_lt_of_le (Nat.succ_pos _) h)
    rw [Nat.zero_add, eliminateWithin_of_cons hqs, eliminateEach]
    rcases hb : a.eliminateState t q with error | ⟨ws, b⟩
    · rfl
    · refine ih ?_ (innerStates_of_cons hqs hb)
      rw [List.length_cons] at h
      omega

/-- Nothing that is checked beforehand speaks against an inner state. -/
theorem checkInner_of_mem_innerStates (hif : a.terminals = .ok (i, f))
    (hvalid : a.isValid = true) (hq : q ∈ a.innerStates) : a.checkInner q = .ok () := by
  obtain ⟨hi, hf, -⟩ := terminals_eq_ok_iff.1 hif
  obtain ⟨hmem, hterminal⟩ := mem_innerStates.1 hq
  rw [isTerminal, hi, hf] at hterminal
  simp only [Bool.or_eq_true, decide_eq_true_eq, Option.some.injEq, not_or] at hterminal
  exact checkInner_eq_ok_iff.2 ⟨i, f, hif, hvalid, hmem, Ne.symm hterminal.1,
    Ne.symm hterminal.2⟩

/-- Without inner states there are just the initial and the final one. -/
theorem WellLinked.contains_iff (h : a.WellLinked) (hif : a.terminals = .ok (i, f))
    (hinner : a.innerStates = []) (x : State) : a.contains x = true ↔ x = i ∨ x = f := by
  obtain ⟨hi, hf, -⟩ := terminals_eq_ok_iff.1 hif
  constructor
  · intro hx
    have hnot : x ∉ a.innerStates := by
      rw [hinner]
      exact List.not_mem_nil
    rw [mem_innerStates, not_and, not_not, isTerminal, hi, hf] at hnot
    have hx := hnot hx
    simp only [Bool.or_eq_true, decide_eq_true_eq, Option.some.injEq] at hx
    exact hx.imp Eq.symm Eq.symm
  · rintro (rfl | rfl)
    · exact h.initial_mem _ hi
    · exact h.final_mem _ hf

theorem mem_pair_iff {x : State} : x ∈ [i, f] ↔ x = i ∨ x = f := by simp

/-- All states but the initial and the final one are inner states. -/
theorem WellLinked.size_eq (h : a.WellLinked) (hif : a.terminals = .ok (i, f)) :
    a.size = a.innerStates.length + 2 := by
  obtain ⟨hi, hf, hne⟩ := terminals_eq_ok_iff.1 hif
  have hpair : [i, f].Nodup := by simp [hne]
  have hends : (a.states.filter a.isTerminal).Perm [i, f] := by
    rw [List.perm_ext_iff_of_nodup (a.nodup_states.filter _) hpair]
    intro x
    rw [List.mem_filter, mem_states, isTerminal, hi, hf, mem_pair_iff, Bool.or_eq_true,
      decide_eq_true_eq, decide_eq_true_eq, Option.some_inj, Option.some_inj]
    constructor
    · intro hx
      exact hx.2.imp Eq.symm Eq.symm
    · rintro (rfl | rfl)
      · exact ⟨h.initial_mem _ hi, Or.inl rfl⟩
      · exact ⟨h.final_mem _ hf, Or.inr rfl⟩
  have hsplit := a.states.length_eq_length_filter_add a.isTerminal
  rw [hends.length_eq, Nat.add_comm] at hsplit
  exact hsplit

/-- Two states are left just when there are no inner states. -/
theorem WellLinked.isReduced_iff (h : a.WellLinked) (hif : a.terminals = .ok (i, f)) :
    a.isReduced = true ↔ a.innerStates = [] := by
  rw [isReduced, decide_eq_true_eq, h.size_eq hif, ← List.length_eq_zero_iff]
  omega

/-- An automaton of two states has only its initial and its final one. -/
theorem WellLinked.contains_of_isReduced (h : a.WellLinked) (hif : a.terminals = .ok (i, f))
    (hred : a.isReduced = true) {x : State} (hx : a.contains x = true) : x = i ∨ x = f :=
  (h.contains_iff hif ((h.isReduced_iff hif).1 hred) x).1 hx

/-! ### Reading the expression off -/

theorem language_throughTwo (first forth back second : Regex) :
    (throughTwo first forth back second).language =
      first.language∗ * forth.language *
        (second.language + back.language * first.language∗ * forth.language)∗ := by
  rw [throughTwo, Regex.language_followedBy, Regex.language_followedBy,
    Regex.language_repeated, Regex.language_repeated, Regex.language_either,
    Regex.language_followedBy, Regex.language_followedBy, Regex.language_repeated]

theorem finalRegex_eq {first forth back second : Regex} (hif : a.terminals = .ok (i, f))
    (hred : a.isReduced = true) (hfirst : a.labelRegex t i i = .ok first)
    (hforth : a.labelRegex t i f = .ok forth) (hback : a.labelRegex t f i = .ok back)
    (hsecond : a.labelRegex t f f = .ok second) :
    a.finalRegex t = writeLabel t (throughTwo first forth back second) := by
  rw [finalRegex, hif]
  show (if !a.isReduced then _ else _) = _
  rw [hred, hfirst, hforth, hback, hsecond]
  rfl

/-- An expression that is read off is put together from four labels. -/
theorem exists_of_finalRegex (htext : a.finalRegex t = .ok text) :
    ∃ i f first forth back second, a.terminals = .ok (i, f) ∧ a.isReduced = true ∧
      a.labelRegex t i i = .ok first ∧ a.labelRegex t i f = .ok forth ∧
      a.labelRegex t f i = .ok back ∧ a.labelRegex t f f = .ok second ∧
      writeLabel t (throughTwo first forth back second) = .ok text := by
  obtain ⟨⟨i, f⟩, hif, htext⟩ := bind_eq_ok_iff.1 htext
  by_cases hred : a.isReduced = true
  · rw [hred] at htext
    obtain ⟨first, hfirst, htext⟩ := bind_eq_ok_iff.1 htext
    obtain ⟨forth, hforth, htext⟩ := bind_eq_ok_iff.1 htext
    obtain ⟨back, hback, htext⟩ := bind_eq_ok_iff.1 htext
    obtain ⟨second, hsecond, htext⟩ := bind_eq_ok_iff.1 htext
    exact ⟨i, f, first, forth, back, second, hif, hred, hfirst, hforth, hback, hsecond, htext⟩
  · rw [Bool.not_eq_true] at hred
    rw [hred] at htext
    simp at htext

/-- The expression that is put together for two states stands for the walks between
them. -/
theorem WellLinked.language_throughTwo_eq {first forth back second : Regex} (h : a.WellLinked)
    (hif : a.terminals = .ok (i, f)) (hred : a.isReduced = true)
    (hfirst : a.labelRegex t i i = .ok first) (hforth : a.labelRegex t i f = .ok forth)
    (hback : a.labelRegex t f i = .ok back) (hsecond : a.labelRegex t f f = .ok second) :
    (throughTwo first forth back second).language = a.language t := by
  obtain ⟨hi, hf, hne⟩ := terminals_eq_ok_iff.1 hif
  rw [language_throughTwo, language_of_labelRegex hfirst, language_of_labelRegex hforth,
    language_of_labelRegex hback, language_of_labelRegex hsecond, language,
    accepted_eq _ hi hf]
  refine (walks_two (E := a.edges (labelLanguage t)) hne fun p q hqi hqf =>
    edges_eq_zero ?_).symm
  -- a third state has no transitions, as there is none
  rcases hl : a.label? p q with _ | label
  · rfl
  · rcases h.contains_of_isReduced hif hred (h.contains_of_label? hl).2 with hq | hq
    · exact absurd hq hqi
    · exact absurd hq hqf

theorem language_of_finalRegex (h : a.WellLinked) (htext : a.finalRegex t = .ok text) :
    ∃ e, Regex.parse t text = .ok e ∧ e.language = a.language t := by
  obtain ⟨i, f, first, forth, back, second, hif, hred, hfirst, hforth, hback, hsecond, hwrite⟩ :=
    exists_of_finalRegex htext
  have hwf := wellFormed_throughTwo (wellFormed_of_labelRegex hfirst)
    (wellFormed_of_labelRegex hforth) (wellFormed_of_labelRegex hback)
    (wellFormed_of_labelRegex hsecond)
  exact ⟨_, ((writeLabel_eq_ok_iff hwf).1 hwrite).2,
    h.language_throughTwo_eq hif hred hfirst hforth hback hsecond⟩

/-- A transition whose label can be read has an expression, and so has one that is not
there. -/
theorem exists_labelRegex
    (hread : ∀ p q label, a.label? p q = some label → ∃ e, Regex.parse t label = .ok e)
    (p q : State) : ∃ e, a.labelRegex t p q = .ok e := by
  rw [labelRegex]
  rcases hl : a.label? p q with _ | label
  · exact ⟨_, rfl⟩
  · obtain ⟨e, he⟩ := hread p q label hl
    exact ⟨e.normalize, readLabel_eq_ok_iff.2 ⟨e, he, rfl⟩⟩

/-- Where the labels can be read, it is just left to write the expression. -/
theorem WellLinked.exists_finalRegex_eq (h : a.WellLinked) (hif : a.terminals = .ok (i, f))
    (hred : a.isReduced = true)
    (hread : ∀ p q label, a.label? p q = some label → ∃ e, Regex.parse t label = .ok e) :
    ∃ e : Regex, e.WellFormed ∧ e.language = a.language t ∧ a.finalRegex t = writeLabel t e := by
  obtain ⟨first, hfirst⟩ := exists_labelRegex hread i i
  obtain ⟨forth, hforth⟩ := exists_labelRegex hread i f
  obtain ⟨back, hback⟩ := exists_labelRegex hread f i
  obtain ⟨second, hsecond⟩ := exists_labelRegex hread f f
  exact ⟨_, wellFormed_throughTwo (wellFormed_of_labelRegex hfirst)
      (wellFormed_of_labelRegex hforth) (wellFormed_of_labelRegex hback)
      (wellFormed_of_labelRegex hsecond),
    h.language_throughTwo_eq hif hred hfirst hforth hback hsecond,
    finalRegex_eq hif hred hfirst hforth hback hsecond⟩

/-- What is true of an automaton that an expression is read off, and of one that a
state is taken out of if it is true of the rest, is true of every automaton that
is turned into an expression. -/
theorem of_eliminateWithin {P : Automaton → Prop}
    (hread : ∀ a : Automaton, a.finalRegex t = .ok text → P a)
    (hstep : ∀ (a b : Automaton) q ws, a.eliminateState t q = .ok (ws, b) → P b → P a)
    {rounds : Nat} (htext : eliminateWithin t rounds a = .ok text) : P a := by
  induction rounds generalizing a with
  | zero => exact hread a htext
  | succ rounds ih =>
    rw [eliminateWithin] at htext
    rcases hhead : a.innerStates.head? with _ | q
    · rw [hhead] at htext
      exact hread a htext
    · rw [hhead] at htext
      obtain ⟨⟨ws, b⟩, hb, htext⟩ := bind_eq_ok_iff.1 htext
      exact hstep a b q ws hb (ih htext)

/-- What comes out of an elimination stands for the language of what was put
in. -/
theorem language_of_eliminateWithin (h : a.WellLinked) {rounds : Nat}
    (htext : eliminateWithin t rounds a = .ok text) :
    ∃ e, Regex.parse t text = .ok e ∧ e.language = a.language t := by
  refine of_eliminateWithin (P := fun a => a.WellLinked →
    ∃ e, Regex.parse t text = .ok e ∧ e.language = a.language t) ?_ ?_ htext h
  · intro a htext h
    exact language_of_finalRegex h htext
  · intro a b q ws hb hrest h
    obtain ⟨e, hparse, hlanguage⟩ := hrest (h.eliminateState hb)
    exact ⟨e, hparse, hlanguage.trans (h.language_eliminateState hb)⟩

theorem language_of_eliminate (h : a.WellLinked) (htext : a.eliminate t = .ok text) :
    ∃ e, Regex.parse t text = .ok e ∧ e.language = a.language t :=
  language_of_eliminateWithin h htext

/-! ### What can be in the way -/

/-- Nothing but the limits on a written label keeps an automaton from being
turned into an expression. -/
structure Ready (t : SymbolTable) (a : Automaton) : Prop where
  linked : a.WellLinked
  terminals : ∃ i f, a.terminals = .ok (i, f)
  valid : a.isValid = true
  readable : ∀ p q label, a.label? p q = some label → ∃ e, Regex.parse t label = .ok e

theorem ready_ofRegex (he : e.WellFormed) (t : SymbolTable) : Ready t (ofRegex e) where
  linked := wellLinked_ofRegex e
  terminals := ⟨_, _, terminals_ofRegex e⟩
  valid := isValid_ofRegex e
  readable p q label hl := by
    obtain ⟨o, ho, rfl⟩ := label?_ofRegex he hl
    exact ⟨_, parse_print t ho⟩

namespace Ready

theorem labelRegex (h : Ready t a) (p q : State) : ∃ e, a.labelRegex t p q = .ok e :=
  exists_labelRegex h.readable p q

/-- A label that was written can be read, so the next state can be
eliminated. -/
theorem eliminateState (h : Ready t a) (hb : a.eliminateState t q = .ok (ws, b)) :
    Ready t b where
  linked := h.linked.eliminateState hb
  terminals := by
    rw [terminals_eliminateState hb]
    exact h.terminals
  valid := isValid_eliminateState h.linked hb
  readable p r label hl := by
    by_cases hpr : p = q ∨ r = q
    · rw [label?_eliminateState h.linked hb, if_pos hpr] at hl
      simp at hl
    · obtain ⟨hp, hr⟩ := not_or.1 hpr
      rcases label?_or_detour h.linked hb hp hr with ⟨hlabel, -⟩ | ⟨written, hlabel, hd⟩
      · exact h.readable p r label (hlabel ▸ hl)
      · rw [hlabel, Option.some_inj] at hl
        obtain ⟨direct, into, loop, out, hd, hi, hloop, ho, hwrite⟩ := hd
        have hwf := wellFormed_around (wellFormed_of_labelRegex hd) (wellFormed_of_labelRegex hi)
          (wellFormed_of_labelRegex hloop) (wellFormed_of_labelRegex ho)
        exact ⟨_, hl ▸ ((writeLabel_eq_ok_iff hwf).1 hwrite).2⟩

/-- An inner state that is not eliminated has a detour that cannot be written. -/
theorem error_of_eliminateState (h : Ready t a) (hq : q ∈ a.innerStates)
    (herror : a.eliminateState t q = .error error) :
    ∃ p ∈ a.sources q, ∃ r ∈ a.targets q, ∃ direct into loop out,
      a.labelRegex t p r = .ok direct ∧ a.labelRegex t p q = .ok into ∧
      a.labelRegex t q q = .ok loop ∧ a.labelRegex t q r = .ok out ∧
      writeLabel t (around direct into loop out) = .error error := by
  obtain ⟨i, f, hif⟩ := h.terminals
  rw [Automaton.eliminateState, checkInner_of_mem_innerStates hif h.valid hq] at herror
  rcases bind_eq_error_iff.1 herror with herror | ⟨⟨⟩, -, herror⟩
  · simp at herror
  · -- the checks are passed, so it is one of the detours
    rcases bind_eq_error_iff.1 herror with herror | ⟨ws, -, herror⟩
    · exact error_of_rewritesAround h.labelRegex herror
    · cases herror

theorem error_of_finalRegex (h : Ready t a) (hinner : a.innerStates = [])
    (herror : a.finalRegex t = .error error) :
    ∃ e : Regex, e.WellFormed ∧ writeLabel t e = .error error := by
  obtain ⟨i, f, hif⟩ := h.terminals
  have hred := (h.linked.isReduced_iff hif).2 hinner
  obtain ⟨e, hwf, -, hwrite⟩ := h.linked.exists_finalRegex_eq hif hred h.readable
  exact ⟨e, hwf, hwrite ▸ herror⟩

/-- As long as there are rounds enough for the inner states, only the limits
are in the way. -/
theorem error_of_eliminateWithin (h : Ready t a) {rounds : Nat}
    (hlen : a.innerStates.length ≤ rounds)
    (herror : eliminateWithin t rounds a = .error error) :
    ∃ e : Regex, e.WellFormed ∧ writeLabel t e = .error error := by
  -- on the rounds: each one leaves an automaton that is ready, with one state less
  induction rounds generalizing a with
  | zero =>
    have hnil : a.innerStates = [] := List.length_eq_zero_iff.1 (Nat.le_zero.1 hlen)
    exact h.error_of_finalRegex hnil herror
  | succ rounds ih =>
    rw [eliminateWithin] at herror
    rcases hhead : a.innerStates.head? with _ | q
    · rw [hhead] at herror
      exact h.error_of_finalRegex (List.head?_eq_none_iff.1 hhead) herror
    · have hq : q ∈ a.innerStates := List.mem_of_head? hhead
      rw [hhead] at herror
      rcases bind_eq_error_iff.1 herror with herror | ⟨⟨ws, b⟩, hb, herror⟩
      · obtain ⟨p, -, r, -, direct, into, loop, out, hd, hi, hl, ho, hwrite⟩ :=
          h.error_of_eliminateState hq herror
        exact ⟨_, wellFormed_around (wellFormed_of_labelRegex hd) (wellFormed_of_labelRegex hi)
          (wellFormed_of_labelRegex hl) (wellFormed_of_labelRegex ho), hwrite⟩
      · have hless := length_innerStates_eliminateState hq hb
        exact ih (h.eliminateState hb) (by omega) herror

end Ready

/-- **There and back again.**  What an expression is turned into by way of its
automaton is read as an expression of the same language; if there is none, a
label was too long or too deep to be written; and nothing that is taken for
granted on the way ever fails. -/
theorem language_of_conversion (he : e.WellFormed) (t : SymbolTable) :
    (∀ text, (ofRegex e).eliminate t = .ok text →
      ∃ e', Regex.parse t text = .ok e' ∧ e'.language = e.language) ∧
    (∀ error, (ofRegex e).eliminate t = .error error →
      ∃ text, (∃ length, error = .label text (.tooLong length)) ∨
        error = .label text .tooDeep) ∧
    (guardedOfRegex e >>= fun a => a.guardedEliminate t) = .ok ((ofRegex e).eliminate t) := by
  have hlinked := wellLinked_ofRegex e
  refine ⟨fun text htext => ?_, fun error herror => ?_, ?_⟩
  · obtain ⟨e', hparse, hlanguage⟩ := language_of_eliminate hlinked htext
    exact ⟨e', hparse, hlanguage.trans (language_ofRegex t he)⟩
  · have hready := ready_ofRegex he t
    obtain ⟨written, hwf, hwrite⟩ :=
      hready.error_of_eliminateWithin (length_innerStates_le _) herror
    rcases error_of_writeLabel hwf hwrite with h | h
    · exact ⟨_, Or.inl ⟨_, h⟩⟩
    · exact ⟨_, Or.inr h⟩
  · rw [guardedOfRegex_eq]
    exact guardedEliminate_eq hlinked t

/-- The expression `(a+b)*` comes back as it was put in. -/
theorem language_of_conversion_star :
    (Regex.star (.union (.operand (.char 'a')) (.operand (.char 'b')))).WellFormed ∧
      (ofRegex (.star (.union (.operand (.char 'a')) (.operand (.char 'b'))))).eliminate
        .standard = .ok "(a+b)*" ∧
      ∃ e', Regex.parse .standard "(a+b)*" = .ok e' ∧
        e'.language =
          (Regex.star (.union (.operand (.char 'a')) (.operand (.char 'b')))).language := by
  have he : (Regex.star (.union (.operand (.char 'a')) (.operand (.char 'b')))).WellFormed :=
    ⟨rfl, rfl⟩
  have heliminate :
      (ofRegex (.star (.union (.operand (.char 'a')) (.operand (.char 'b'))))).eliminate
        .standard = .ok "(a+b)*" := by cbv
  exact ⟨he, heliminate, (language_of_conversion he .standard).1 _ heliminate⟩

end RegexAutomata.Automaton
