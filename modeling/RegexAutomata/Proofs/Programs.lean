/-
The programs, and the elimination that they share.

An elimination picks the lowest inner state anew in each round (`eliminateLowest`),
while both programs go through a list of inner states that is fixed in advance.  As a
step takes one state out and leaves the roles alone, they perform the same steps
(`eliminateEach_take`), and a program that stops early has performed the first of
them (`eliminateLowest_of_le`).

In the automaton of an expression nothing enters the initial state, nothing leaves
the final one, and labels are written as they would be written again (`Conveys`).
Each step keeps it so.  Hence two states are left with one transition between them
(`Conveys.exists_label`), and reading the expression off gives its label
(`Conveys.finalRegex_eq`).

Which signs a program uses is told by the wishes that its arguments express
(`Arguments.wishes`, `prepare_of_wishes`), and what it prints by the steps themselves
(`trace`), not by how it goes about printing them.
-/
import RegexAutomata.CommandLine.Programs
import RegexAutomata.Proofs.Repetition
import RegexAutomata.Proofs.Resolution
import RegexAutomata.Proofs.Signs

namespace RegexAutomata

namespace Automaton

variable {a b : Automaton} {t : SymbolTable} {p q i f : State} {e : Regex} {text : String}
  {error : EliminationError} {ws : List Rewrite}

/-! ### Picking the lowest state -/

/-- Eliminate the lowest inner state, `rounds` times or until there is none, up to the
first failure, and keep what was done. -/
def eliminateLowest (t : SymbolTable) : (rounds : Nat) → Automaton → Run
  | 0, a => ⟨[], a, none⟩
  | rounds + 1, a =>
    match a.innerStates.head? with
    | none => ⟨[], a, none⟩
    | some q =>
      match a.eliminateState t q with
      | .error e => ⟨[], a, some (q, e)⟩
      | .ok (ws, b) =>
        let run := eliminateLowest t rounds b
        { run with steps := ⟨q, ws⟩ :: run.steps }

/-- What comes of an elimination that goes on, for some more rounds, from what a run has
left. -/
def Run.resume (t : SymbolTable) (rounds : Nat) (run : Run) : Except EliminationError String :=
  match run.failure with
  | none => eliminateWithin t rounds run.rest
  | some (_, e) => .error e

/-- The automaton after some steps. -/
def replay (a : Automaton) (steps : List Step) : Automaton :=
  steps.foldl (fun b s => (b.write s.rewrites).removeState s.state) a

theorem eliminateLowest_of_nil (hqs : a.innerStates = []) (rounds : Nat) :
    eliminateLowest t rounds a = ⟨[], a, none⟩ := by
  cases rounds with
  | zero => rfl
  | succ rounds =>
    rw [eliminateLowest, hqs]
    rfl

theorem eliminateLowest_of_error (hq : a.innerStates.head? = some q)
    (herror : a.eliminateState t q = .error error) (rounds : Nat) :
    eliminateLowest t (rounds + 1) a = ⟨[], a, some (q, error)⟩ := by
  rw [eliminateLowest, hq]
  dsimp only
  rw [herror]

theorem eliminateLowest_of_ok (hq : a.innerStates.head? = some q)
    (hb : a.eliminateState t q = .ok (ws, b)) (rounds : Nat) :
    eliminateLowest t (rounds + 1) a =
      { eliminateLowest t rounds b with
        steps := ⟨q, ws⟩ :: (eliminateLowest t rounds b).steps } := by
  rw [eliminateLowest, hq]
  dsimp only
  rw [hb]

/-- Whenever an elimination is looked at, it has done what the run has done so far, and
goes on from there. -/
theorem eliminateWithin_add (t : SymbolTable) (rounds more : Nat) (a : Automaton) :
    eliminateWithin t (rounds + more) a = (eliminateLowest t rounds a).resume t more := by
  induction rounds generalizing a with
  | zero =>
    rw [Nat.zero_add]
    rfl
  | succ rounds ih =>
    rcases hqs : a.innerStates with _ | ⟨q, qs⟩
    · rw [eliminateWithin_of_nil hqs, eliminateLowest_of_nil hqs]
      exact (eliminateWithin_of_nil hqs more).symm
    · rw [Nat.succ_add, eliminateWithin_of_cons hqs, eliminateLowest, hqs, List.head?_cons]
      dsimp only
      rcases a.eliminateState t q with error | ⟨ws, b⟩
      · rfl
      · exact ih b

theorem eliminate_eq_resume (t : SymbolTable) (a : Automaton) {rounds : Nat}
    (h : rounds ≤ a.size) :
    a.eliminate t = (eliminateLowest t rounds a).resume t (a.size - rounds) := by
  rw [← eliminateWithin_add, Nat.add_sub_cancel' h]
  rfl

/-- The lowest states, picked one by one, are the first ones of the list that was fixed in
advance. -/
theorem eliminateEach_take (t : SymbolTable) (rounds : Nat) (a : Automaton) :
    eliminateEach t (a.innerStates.take rounds) a = eliminateLowest t rounds a := by
  induction rounds generalizing a with
  | zero => rfl
  | succ rounds ih =>
    rcases hqs : a.innerStates with _ | ⟨q, qs⟩
    · rw [eliminateLowest_of_nil hqs]
      rfl
    · rw [List.take_succ_cons, eliminateEach, eliminateLowest, hqs, List.head?_cons]
      dsimp only
      rcases hb : a.eliminateState t q with error | ⟨ws, b⟩
      · rfl
      · dsimp only
        rw [← ih b, innerStates_of_cons hqs hb]

theorem eliminateEach_innerStates (t : SymbolTable) (a : Automaton) :
    eliminateEach t a.innerStates a = eliminateLowest t a.size a := by
  rw [← eliminateEach_take, List.take_of_length_le (length_innerStates_le a)]

/-! ### Stopping early -/

theorem eliminateEach_cons {qs : List State} (hb : a.eliminateState t q = .ok (ws, b)) :
    eliminateEach t (q :: qs) a =
      { eliminateEach t qs b with steps := ⟨q, ws⟩ :: (eliminateEach t qs b).steps } := by
  rw [eliminateEach, hb]

/-- The first step of a run that comes to its end, and the run that is left. -/
theorem exists_of_failure_eq_none {qs : List State}
    (h : (eliminateEach t (q :: qs) a).failure = none) :
    ∃ ws b, a.eliminateState t q = .ok (ws, b) ∧ (eliminateEach t qs b).failure = none ∧
      (eliminateEach t (q :: qs) a).steps = ⟨q, ws⟩ :: (eliminateEach t qs b).steps ∧
      (eliminateEach t (q :: qs) a).rest = (eliminateEach t qs b).rest := by
  rcases hb : a.eliminateState t q with error | ⟨ws, b⟩
  · rw [eliminateEach, hb] at h
    cases h
  · rw [eliminateEach_cons hb] at h ⊢
    exact ⟨ws, b, rfl, h, rfl, rfl⟩

/-- A run that comes to its end eliminates the whole list. -/
theorem map_state_steps {qs : List State} (h : (eliminateEach t qs a).failure = none) :
    (eliminateEach t qs a).steps.map Step.state = qs := by
  induction qs generalizing a with
  | nil => rfl
  | cons q qs ih =>
    obtain ⟨ws, b, -, hrun, hsteps, -⟩ := exists_of_failure_eq_none h
    rw [hsteps, List.map_cons, ih hrun]

theorem replay_cons {steps : List Step} (hb : a.eliminateState t q = .ok (ws, b)) :
    a.replay (⟨q, ws⟩ :: steps) = b.replay steps := by
  obtain ⟨-, -, rfl⟩ := eliminateState_eq_ok_iff.1 hb
  rfl

/-- What a run leaves is what its steps lead to.  If it fails, it does so at the lowest inner
state that is left. -/
theorem rest_eliminateLowest (t : SymbolTable) (rounds : Nat) (a : Automaton) :
    (eliminateLowest t rounds a).rest = a.replay (eliminateLowest t rounds a).steps ∧
      ∀ q error, (eliminateLowest t rounds a).failure = some (q, error) →
        (eliminateLowest t rounds a).rest.innerStates.head? = some q ∧
          (eliminateLowest t rounds a).rest.eliminateState t q = .error error := by
  induction rounds generalizing a with
  | zero => exact ⟨rfl, nofun⟩
  | succ rounds ih =>
    rcases hq : a.innerStates.head? with _ | q
    · rw [eliminateLowest_of_nil (List.head?_eq_none_iff.1 hq)]
      exact ⟨rfl, nofun⟩
    · rcases hb : a.eliminateState t q with error | ⟨ws, b⟩
      · rw [eliminateLowest_of_error hq hb]
        refine ⟨rfl, fun q' error' hfailure => ?_⟩
        cases hfailure
        exact ⟨hq, hb⟩
      · rw [eliminateLowest_of_ok hq hb, replay_cons hb]
        exact ih b

/-- A run of fewer rounds performs the first of the steps. -/
theorem eliminateLowest_of_le {rounds more : Nat}
    (h : rounds ≤ (eliminateLowest t more a).steps.length) :
    eliminateLowest t rounds a =
      ⟨(eliminateLowest t more a).steps.take rounds,
        a.replay ((eliminateLowest t more a).steps.take rounds), none⟩ := by
  induction rounds generalizing more a with
  | zero => rfl
  | succ rounds ih =>
    cases more with
    | zero => cases h
    | succ more =>
      rcases hq : a.innerStates.head? with _ | q
      · rw [eliminateLowest_of_nil (List.head?_eq_none_iff.1 hq)] at h
        cases h
      · rcases hb : a.eliminateState t q with error | ⟨ws, b⟩
        · rw [eliminateLowest_of_error hq hb] at h
          cases h
        · rw [eliminateLowest_of_ok hq hb] at h
          rw [eliminateLowest_of_ok hq hb, eliminateLowest_of_ok hq hb,
            ih (Nat.le_of_succ_le_succ h), List.take_succ_cons, replay_cons hb]

/-- A run that fails does so in any number of rounds that go beyond its steps. -/
theorem eliminateLowest_of_failure {rounds more : Nat}
    (hfailure : (eliminateLowest t more a).failure ≠ none)
    (h : (eliminateLowest t more a).steps.length < rounds) :
    eliminateLowest t rounds a = eliminateLowest t more a := by
  induction more generalizing rounds a with
  | zero => exact absurd rfl hfailure
  | succ more ih =>
    obtain ⟨rounds, rfl⟩ := Nat.exists_eq_add_of_lt (Nat.lt_of_le_of_lt (Nat.zero_le _) h)
    rw [Nat.zero_add] at h ⊢
    rcases hq : a.innerStates.head? with _ | q
    · rw [eliminateLowest_of_nil (List.head?_eq_none_iff.1 hq)] at hfailure
      exact absurd rfl hfailure
    · rcases hb : a.eliminateState t q with error | ⟨ws, b⟩
      · rw [eliminateLowest_of_error hq hb, eliminateLowest_of_error hq hb]
      · rw [eliminateLowest_of_ok hq hb] at hfailure h
        rw [eliminateLowest_of_ok hq hb, eliminateLowest_of_ok hq hb,
          ih hfailure (Nat.lt_of_succ_lt_succ h)]

theorem map_state_eliminateLowest (h : (eliminateLowest t a.size a).failure = none) :
    (eliminateLowest t a.size a).steps.map Step.state = a.innerStates := by
  rw [← eliminateEach_innerStates] at h ⊢
  exact map_state_steps h

/-- Where a run comes to its end, any number of rounds performs the first of its steps, or all
of them. -/
theorem eliminateLowest_of_failure_eq_none (h : (eliminateLowest t a.size a).failure = none)
    (rounds : Nat) :
    eliminateLowest t rounds a =
      ⟨(eliminateLowest t a.size a).steps.take rounds,
        a.replay ((eliminateLowest t a.size a).steps.take rounds), none⟩ := by
  rcases Nat.le_total rounds (eliminateLowest t a.size a).steps.length with hle | hle
  · exact eliminateLowest_of_le hle
  · -- there are as many steps as inner states
    have hlength : a.innerStates.length ≤ rounds := by
      rwa [← map_state_eliminateLowest h, List.length_map]
    rw [← eliminateEach_take, List.take_of_length_le hlength, eliminateEach_innerStates,
      List.take_of_length_le hle, ← (rest_eliminateLowest t a.size a).1, ← h]

/-! ### What stays as it is -/

/-- Nothing enters the initial state, nothing leaves the final one, and every label is
written as the expression that it spells is written. -/
structure Conveys (t : SymbolTable) (i f : State) (a : Automaton) : Prop extends Ready t a where
  terminals_eq : a.terminals = .ok (i, f)
  label?_initial : ∀ p, a.label? p i = none
  label?_final : ∀ q, a.label? f q = none
  written : ∀ p q label, a.label? p q = some label →
    ∃ e : Regex, e.Normal ∧ e.WellFormed ∧ writeLabel t e = .ok label

theorem writeLabel_operand (t : SymbolTable) {o : Operand} (ho : o.Proper) :
    writeLabel t (.operand o) = .ok o.print := by
  have he : (Regex.operand o).WellFormed := ho
  exact (writeLabel_eq_ok_iff he).2 ⟨Regex.display_operand t o, parse_print t ho⟩

/-- In the automaton of an expression labels are single operands. -/
theorem conveys_ofRegex (he : e.WellFormed) (t : SymbolTable) :
    Conveys t (buildInto e .empty).1.entry (buildInto e .empty).1.exit (ofRegex e) where
  toReady := ready_ofRegex he t
  terminals_eq := terminals_ofRegex e
  label?_initial p := by
    rw [ofRegex_eq_roles]
    exact (builds_buildInto wellLinked_empty e).label?_entry p
  label?_final q := by
    rw [ofRegex_eq_roles]
    exact (builds_buildInto wellLinked_empty e).label?_exit q
  written p q label hl := by
    obtain ⟨o, ho, rfl⟩ := label?_ofRegex he hl
    exact ⟨.operand o, .operand o, ho, writeLabel_operand t ho⟩

/-- Two states are left, and one transition from the initial to the final one. -/
def SaysOnly (a : Automaton) (text : String) : Prop :=
  a.size = 2 ∧ ∃ i f, i ≠ f ∧ a.initial = some i ∧ a.final = some f ∧
    a.transitions = [(i, f, text)]

/-- Where nothing leads from one state to another, directly or through a third one, an
elimination of the third one adds nothing. -/
theorem label?_eliminateState_eq_none {r : State} (h : a.WellLinked)
    (hb : a.eliminateState t q = .ok (ws, b)) (hpr : a.label? p r = none)
    (hhalf : a.label? p q = none ∨ a.label? q r = none) : b.label? p r = none := by
  by_contra hlabel
  obtain ⟨hp, hr⟩ : p ≠ q ∧ r ≠ q := by
    refine not_or.1 fun hor => hlabel ?_
    rw [label?_eliminateState h hb, if_pos hor]
  have hleads : b.Leads p r := Option.ne_none_iff_exists'.1 hlabel
  rcases (leads_eliminateState h hb hp hr).1 hleads with ⟨label, hl⟩ | ⟨⟨into, hi⟩, out, ho⟩
  · rw [hpr] at hl
    simp at hl
  · rcases hhalf with hnone | hnone
    · rw [hnone] at hi
      simp at hi
    · rw [hnone] at ho
      simp at ho

/-- Where there is one way forth and no other, it is all there is. -/
theorem throughTwo_forth (e : Regex) : throughTwo .emptySet e .emptySet .emptySet = e := by
  show (Regex.followedBy .emptyString e).followedBy .emptyString = e
  rw [followedBy_emptyString, emptyString_followedBy]

namespace Conveys

/-- An elimination writes labels itself, and leads no way into the initial state or out
of the final one. -/
theorem eliminateState (h : Conveys t i f a) (hb : a.eliminateState t q = .ok (ws, b)) :
    Conveys t i f b where
  toReady := h.toReady.eliminateState hb
  terminals_eq := (terminals_eliminateState hb).trans h.terminals_eq
  label?_initial p :=
    label?_eliminateState_eq_none h.linked hb (h.label?_initial p) (Or.inr (h.label?_initial q))
  label?_final r :=
    label?_eliminateState_eq_none h.linked hb (h.label?_final r) (Or.inl (h.label?_final q))
  written p r label hl := by
    obtain ⟨hpq, hrq⟩ : p ≠ q ∧ r ≠ q := by
      refine not_or.1 fun hor => ?_
      rw [label?_eliminateState h.linked hb, if_pos hor] at hl
      simp at hl
    rcases label?_or_detour h.linked hb hpq hrq with ⟨hsame, -⟩ | ⟨new, hnew, hd⟩
    · exact h.written p r label (hsame ▸ hl)
    · rw [hnew, Option.some_inj] at hl
      exact ⟨_, hl ▸ hd.writeLabel_eq_ok hpq hrq⟩

/-- What holds of the automaton of an expression holds after any number of steps. -/
theorem rest_eliminateEach {qs : List State} (h : Conveys t i f a)
    (hrun : (eliminateEach t qs a).failure = none) : Conveys t i f (eliminateEach t qs a).rest := by
  induction qs generalizing a with
  | nil => exact h
  | cons q qs ih =>
    obtain ⟨ws, b, hb, hless, -, hrest⟩ := exists_of_failure_eq_none hrun
    rw [hrest]
    exact ih (h.eliminateState hb) hless

/-- The last two states are joined by one transition. -/
theorem exists_label (h : Conveys t i f a) (hinner : a.innerStates = []) :
    ∃ label, a.label? i f = some label ∧ a.transitions = [(i, f, label)] := by
  obtain ⟨hi, hf, hne⟩ := terminals_eq_ok_iff.1 h.terminals_eq
  have hstates := h.linked.contains_iff h.terminals_eq hinner
  -- a transition leaves no other state than the initial one, and enters the final one
  have hends : ∀ p q label, a.label? p q = some label → p = i ∧ q = f := by
    intro p q label hl
    obtain ⟨hp, hq⟩ := h.linked.contains_of_label? hl
    constructor
    · refine ((hstates p).1 hp).resolve_right fun hpf => ?_
      rw [hpf, h.label?_final q] at hl
      simp at hl
    · refine ((hstates q).1 hq).resolve_left fun hqi => ?_
      rw [hqi, h.label?_initial p] at hl
      simp at hl
  -- and there is one, because the final state can be reached
  obtain ⟨label, hl⟩ : a.Leads i f := by
    obtain ⟨i', f', hi', -, hreach⟩ := h.linked.isValid_iff.1 h.valid
    rw [hi, Option.some_inj] at hi'
    subst hi'
    rcases Relation.ReflTransGen.cases_tail (hreach f ((hstates f).2 (Or.inr rfl))) with
      heq | ⟨p, -, label, hl⟩
    · exact absurd heq.symm hne
    · exact ⟨label, (hends p f label hl).1 ▸ hl⟩
  refine ⟨label, hl, ?_⟩
  refine List.perm_singleton.1
    ((List.perm_ext_iff_of_nodup a.nodup_transitions (List.nodup_singleton _)).2 ?_)
  rintro ⟨p, q, new⟩
  rw [h.linked.mem_transitions, List.mem_singleton]
  constructor
  · intro hnew
    obtain ⟨rfl, rfl⟩ := hends p q new hnew
    rw [hl, Option.some_inj] at hnew
    rw [hnew]
  · intro heq
    cases heq
    exact hl

/-- What is read off the last two states is the label between them. -/
theorem finalRegex_eq (h : Conveys t i f a) (hinner : a.innerStates = []) {label : String}
    (hl : a.label? i f = some label) : a.finalRegex t = .ok label := by
  obtain ⟨e, hnormal, hwf, hwrite⟩ := h.written i f label hl
  have hforth : a.ways t i f = e := by
    refine ways_eq ?_
    rw [labelRegex, hl]
    exact readLabel_eq_ok_iff.2
      ⟨e, ((writeLabel_eq_ok_iff hwf).1 hwrite).2, hnormal.normalize_eq.symm⟩
  rw [h.finalRegex_eq_writeLabel h.terminals_eq hinner, Ways.through, hforth,
    ways_of_label?_eq_none (h.label?_initial i), ways_of_label?_eq_none (h.label?_final i),
    ways_of_label?_eq_none (h.label?_final f), throughTwo_forth]
  exact hwrite

/-- When an expression has been read off, nothing else is left. -/
theorem saysOnly (h : Conveys t i f a) (hinner : a.innerStates = [])
    (htext : a.finalRegex t = .ok text) : a.SaysOnly text := by
  obtain ⟨label, hl, htransitions⟩ := h.exists_label hinner
  obtain ⟨hi, hf, hne⟩ := terminals_eq_ok_iff.1 h.terminals_eq
  have hred : a.isReduced = true := (h.linked.isReduced_iff h.terminals_eq).2 hinner
  rw [h.finalRegex_eq hinner hl, Except.ok.injEq] at htext
  subst htext
  exact ⟨of_decide_eq_true hred, i, f, hne, hi, hf, htransitions⟩

end Conveys

/-! ### Where the elimination ends -/

/-- The whole run, and then what is read off. -/
theorem eliminate_eq_resume_zero (t : SymbolTable) (a : Automaton) :
    a.eliminate t = (eliminateLowest t a.size a).resume t 0 :=
  eliminateWithin_add t a.size 0 a

theorem Run.resume_eq_ok_iff {run : Run} :
    run.resume t 0 = .ok text ↔ run.failure = none ∧ run.rest.finalRegex t = .ok text := by
  rw [resume]
  rcases run.failure with _ | ⟨q, error⟩
  · simp [eliminateWithin]
  · simp

/-- No inner state is left. -/
theorem innerStates_rest {qs : List State} (hqs : a.innerStates = qs)
    (h : (eliminateEach t qs a).failure = none) : (eliminateEach t qs a).rest.innerStates = [] := by
  induction qs generalizing a with
  | nil => exact hqs
  | cons q qs ih =>
    obtain ⟨ws, b, hb, hrun, -, hrest⟩ := exists_of_failure_eq_none h
    rw [hrest]
    exact ih (innerStates_of_cons hqs hb) hrun

theorem Conveys.rest_eliminateLowest (h : Conveys t i f a)
    (hrun : (eliminateLowest t a.size a).failure = none) :
    Conveys t i f (eliminateLowest t a.size a).rest ∧
      (eliminateLowest t a.size a).rest.innerStates = [] := by
  rw [← eliminateEach_innerStates] at hrun ⊢
  exact ⟨h.rest_eliminateEach hrun, innerStates_rest rfl hrun⟩

/-- Nothing is in the way of reading the expression off, so an elimination that fails has
failed at some state. -/
theorem Conveys.failure_of_eliminate (h : Conveys t i f a) (herror : a.eliminate t = .error error) :
    ∃ q, (eliminateLowest t a.size a).failure = some (q, error) := by
  rw [eliminate_eq_resume_zero, Run.resume] at herror
  rcases hrun : (eliminateLowest t a.size a).failure with _ | ⟨q, error'⟩
  · obtain ⟨hrest, hinner⟩ := h.rest_eliminateLowest hrun
    obtain ⟨label, hl, -⟩ := hrest.exists_label hinner
    rw [hrun] at herror
    dsimp only at herror
    rw [eliminateWithin, hrest.finalRegex_eq hinner hl] at herror
    simp at herror
  · rw [hrun] at herror
    cases herror
    exact ⟨q, rfl⟩

/-- What is in the way of an elimination is a label that cannot be read again. -/
theorem Ready.exists_label_of_eliminate (h : Ready t a) (herror : a.eliminate t = .error error) :
    ∃ label cause, error = .label label cause ∧ Regex.parse t label = .error cause := by
  obtain ⟨e, -, hwrite⟩ := h.error_of_eliminateWithin (length_innerStates_le a) herror
  rw [writeLabel] at hwrite
  rcases hparse : Regex.parse t (e.display t) with cause | e'
  · rw [hparse] at hwrite
    cases hwrite
    exact ⟨_, _, rfl, hparse⟩
  · rw [hparse] at hwrite
    cases hwrite

/-- The lines that a step is reported with: the state, and the transitions that were written. -/
def Step.lines (s : Step) : List String :=
  ("eliminate q" ++ toString s.state) :: s.rewrites.map fun w =>
    "  q" ++ toString w.source ++ " -> q" ++ toString w.target ++ ": " ++ w.label

end Automaton

/-! ### The programs -/

namespace CommandLine

open Automaton (Step Run ofRegex eliminateEach eliminateLowest)

variable {args : Arguments} {t : SymbolTable} {e : Regex} {run : Run}

/-! #### What is asked for -/

/-- The signs that the arguments give, that of repetition first and that of union last. -/
def Arguments.wishes (args : Arguments) : List (Operator × Char) :=
  [.star, .concat, .union].filterMap fun op => (args.sign op).map fun c => (op, c)

/-- The program goes through the operations, and grants the wishes in turn. -/
theorem chooseSigns_of_rebindAll {sign : Operator → Option Char} {ops : List Operator}
    {t₀ : SymbolTable}
    (h : t₀.rebindAll (ops.filterMap fun op => (sign op).map fun c => (op, c)) = .ok t) :
    chooseSigns sign ops t₀ = .ok t := by
  induction ops generalizing t₀ with
  | nil => exact congrArg Except.ok (Except.ok.inj h)
  | cons op ops ih =>
    rcases hsign : sign op with _ | c
    · rw [List.filterMap_cons_none (by rw [hsign]; rfl)] at h
      rw [chooseSigns, hsign]
      exact ih h
    · rw [List.filterMap_cons_some (by rw [hsign]; rfl)] at h
      obtain ⟨t₁, hrebind, h⟩ := bind_eq_ok_iff.1 h
      rw [chooseSigns, hsign]
      dsimp only
      rw [hrebind]
      exact ih h

/-- Each operation has the sign that was asked for, or else keeps the one that it has. -/
theorem symbol_of_rebindAll {sign : Operator → Option Char} {ops : List Operator}
    {t₀ : SymbolTable}
    (h : t₀.rebindAll (ops.filterMap fun op => (sign op).map fun c => (op, c)) = .ok t)
    (op : Operator) :
    t.symbol op = if op ∈ ops then (sign op).getD (t₀.symbol op) else t₀.symbol op := by
  induction ops generalizing t₀ with
  | nil =>
    cases h
    rfl
  | cons first ops ih =>
    rcases hsign : sign first with _ | c
    · rw [List.filterMap_cons_none (by rw [hsign]; rfl)] at h
      rw [ih h]
      by_cases hop : op = first
      · subst hop
        simp [hsign]
      · simp [hop]
    · rw [List.filterMap_cons_some (by rw [hsign]; rfl)] at h
      obtain ⟨t₁, hrebind, h⟩ := bind_eq_ok_iff.1 h
      rw [ih h, SymbolTable.symbol_of_rebind hrebind]
      by_cases hop : op = first
      · subst hop
        simp [hsign]
      · simp [hop]

theorem prepare_of_wishes (ht : SymbolTable.standard.rebindAll args.wishes = .ok t)
    (he : Regex.parse t args.expression = .ok e) : prepare args = .ok (t, e) := by
  have hchoose : chooseSigns args.sign Operator.all .standard = .ok t := chooseSigns_of_rebindAll ht
  refine bind_eq_ok_iff.2 ⟨t, hchoose, ?_⟩
  rw [he]
  rfl

/-! #### What is printed -/

/-- The lines of some steps, each of them with its end. -/
def trace (steps : List Step) : String :=
  String.join ((steps.flatMap Step.lines).map fun text => text ++ "\n")

/-- The failure of an elimination at a state, for a label that cannot be read. -/
def labelFailure (q : State) (label : String) (cause : ParseError) : Failure where
  context := "Error eliminating q" ++ toString q
  causes := ["Invalid transition label " ++ Text.quoteString label, cause.message]

theorem append_name (text : String) (q : State) : text ++ q.name = text ++ "q" ++ toString q :=
  String.append_assoc.symm

theorem stepReport_eq (s : Step) :
    stepReport s = String.join (s.lines.map fun text => text ++ "\n") := by
  rw [stepReport, Step.lines, List.map_cons, String.join_cons, List.map_map]
  refine congrArg₂ _ ?_ (congrArg String.join (List.map_congr_left fun w _ => ?_))
  · rw [line, append_name, show "eliminate q" = "eliminate " ++ "q" from rfl]
  · rw [line, Rewrite.print, State.name, State.name, Function.comp_apply,
      show "  q" = "  " ++ "q" from rfl, show " -> q" = " -> " ++ "q" from rfl]
    simp only [String.append_assoc]

theorem join_map_stepReport (steps : List Step) :
    String.join (steps.map stepReport) = trace steps := by
  induction steps with
  | nil => rfl
  | cons s steps ih =>
    rw [List.map_cons, String.join_cons, ih, stepReport_eq, trace, trace, List.flatMap_cons,
      List.map_append, String.join_append]

theorem eliminationFailure_label (q : State) (label : String) (cause : ParseError) :
    eliminationFailure ("Error eliminating " ++ q.name) (.label label cause) =
      labelFailure q label cause := by
  have hcontext : "Error eliminating " ++ q.name = "Error eliminating q" ++ toString q := by
    rw [append_name, show "Error eliminating q" = "Error eliminating " ++ "q" from rfl]
  rw [hcontext]
  rfl

theorem runWith_eliminate (h : prepare args = .ok (t, e)) (quiet : Bool) :
    runWith .eliminate { args with quiet := quiet } = eliminateAll t quiet e := by
  have hprepare : prepare { args with quiet := quiet } = .ok (t, e) := h
  rw [runWith, hprepare]

theorem runWith_draw (h : prepare args = .ok (t, e)) (n : Nat) :
    runWith .draw { args with tree := false, rounds := n } = drawAutomaton t n e := by
  have hprepare : prepare { args with tree := false, rounds := n } = .ok (t, e) := h
  rw [runWith, hprepare]
  rfl

/-- A run that comes to its end is reported, and then its text is printed. -/
theorem eliminateAll_of_ok {text : String}
    (hrun : eliminateEach t (ofRegex e).innerStates (ofRegex e) = run)
    (htext : run.failure = none ∧ run.rest.finalRegex t = .ok text) (quiet : Bool) :
    eliminateAll t quiet e =
      ⟨(if quiet then "" else trace run.steps) ++ (text ++ "\n"), .success⟩ := by
  rw [eliminateAll, hrun, runStatus, htext.1]
  dsimp only
  rw [htext.2, join_map_stepReport]
  rfl

/-- A run that fails is reported up to there. -/
theorem eliminateAll_of_failure {q : State} {label : String} {cause : ParseError}
    (hrun : eliminateEach t (ofRegex e).innerStates (ofRegex e) = run)
    (hfailure : run.failure = some (q, .label label cause)) (quiet : Bool) :
    eliminateAll t quiet e =
      ⟨if quiet then "" else trace run.steps, .failure (labelFailure q label cause)⟩ := by
  rw [eliminateAll, hrun, runStatus, hfailure]
  dsimp only
  rw [join_map_stepReport, eliminationFailure_label]

theorem drawAutomaton_of_ok {n : Nat}
    (hrun : eliminateEach t ((ofRegex e).innerStates.take n) (ofRegex e) = run)
    (hfailure : run.failure = none) :
    drawAutomaton t n e = ⟨run.rest.graph.print ++ "\n", .success⟩ := by
  rw [drawAutomaton, hrun, runStatus, hfailure]
  rfl

theorem drawAutomaton_of_failure {n : Nat} {q : State} {label : String} {cause : ParseError}
    (hrun : eliminateEach t ((ofRegex e).innerStates.take n) (ofRegex e) = run)
    (hfailure : run.failure = some (q, .label label cause)) :
    drawAutomaton t n e = ⟨"", .failure (labelFailure q label cause)⟩ := by
  rw [drawAutomaton, hrun, runStatus, hfailure]
  dsimp only
  rw [eliminationFailure_label]

/-- **One elimination, three ways to run it.**  Take a text that can be read with the signs
that are asked for.  The states that both programs go through are the ones that an elimination
picks one by one, with the same transitions written at each.  If it comes to an end, the first
program prints its text, behind the lines of all steps unless it is quiet; the second one draws
what is left after the first of the steps, and when none is left out these are two states with
one transition that says the same text.  If it fails, it is at the lowest state that is left
after the steps, for a label that cannot be read; so does the first program, and the second one
unless it stops before. -/
theorem programs_agree (ht : SymbolTable.standard.rebindAll args.wishes = .ok t)
    (he : Regex.parse t args.expression = .ok e) :
    let a := ofRegex e
    let run := eliminateLowest t a.size a
    (∀ op, t.symbol op = (args.sign op).getD op.defaultSymbol) ∧
    (∀ n, n ≤ a.size →
      a.eliminate t = (eliminateLowest t n a).resume t (a.size - n)) ∧
    eliminateEach t a.innerStates a = run ∧
    (∀ n, eliminateEach t (a.innerStates.take n) a = eliminateLowest t n a) ∧
    (∀ text, a.eliminate t = .ok text →
      run.steps.map Step.state = a.innerStates ∧
      runWith .eliminate { args with quiet := true } = ⟨text ++ "\n", .success⟩ ∧
      runWith .eliminate { args with quiet := false } =
        ⟨trace run.steps ++ (text ++ "\n"), .success⟩ ∧
      ∀ n, runWith .draw { args with tree := false, rounds := n } =
          ⟨(a.replay (run.steps.take n)).graph.print ++ "\n", .success⟩ ∧
        (a.innerStates.length ≤ n → (a.replay (run.steps.take n)).SaysOnly text)) ∧
    ∀ error, a.eliminate t = .error error →
      ∃ q label cause,
        error = .label label cause ∧ Regex.parse t label = .error cause ∧
        run.failure = some (q, error) ∧
        (a.replay run.steps).innerStates.head? = some q ∧
        (a.replay run.steps).eliminateState t q = .error error ∧
        (∀ quiet, runWith .eliminate { args with quiet := quiet } =
          ⟨if quiet then "" else trace run.steps, .failure (labelFailure q label cause)⟩) ∧
        ∀ n, runWith .draw { args with tree := false, rounds := n } =
          if n ≤ run.steps.length then
            ⟨(a.replay (run.steps.take n)).graph.print ++ "\n", .success⟩
          else ⟨"", .failure (labelFailure q label cause)⟩ := by
  intro a run
  have h : prepare args = .ok (t, e) := prepare_of_wishes ht he
  have hsnapshot : eliminateEach t a.innerStates a = run := Automaton.eliminateEach_innerStates t a
  have htake : ∀ n, eliminateEach t (a.innerStates.take n) a = eliminateLowest t n a := fun n =>
    Automaton.eliminateEach_take t n a
  have hconveys := Automaton.conveys_ofRegex (Automaton.wellFormed_of_parse he) t
  obtain ⟨hrest, hlowest⟩ := Automaton.rest_eliminateLowest t a.size a
  refine ⟨fun op => ?_, fun n hn => Automaton.eliminate_eq_resume t a hn, hsnapshot, htake,
    fun text htext => ?_, fun error herror => ?_⟩
  · have hop : op ∈ [Operator.star, .concat, .union] := Operator.mem_all op
    rw [symbol_of_rebindAll ht, if_pos hop]
    cases op <;> rfl
  · rw [Automaton.eliminate_eq_resume_zero, Run.resume_eq_ok_iff] at htext
    obtain ⟨hfailure, hfinal⟩ := htext
    have hstates := Automaton.map_state_eliminateLowest hfailure
    refine ⟨hstates, ?_, ?_, fun n => ⟨?_, fun hn => ?_⟩⟩
    · rw [runWith_eliminate h, eliminateAll_of_ok hsnapshot ⟨hfailure, hfinal⟩]
      simp
    · rw [runWith_eliminate h, eliminateAll_of_ok hsnapshot ⟨hfailure, hfinal⟩]
      simp
    · rw [runWith_draw h, drawAutomaton_of_ok
        ((htake n).trans (Automaton.eliminateLowest_of_failure_eq_none hfailure n)) rfl]
    · -- no step is left out, so this is what the whole run leaves
      rw [← hstates, List.length_map] at hn
      obtain ⟨hconveyed, hinner⟩ := hconveys.rest_eliminateLowest hfailure
      rw [List.take_of_length_le hn, ← hrest]
      exact hconveyed.saysOnly hinner hfinal
  · obtain ⟨q, hfailure⟩ := hconveys.failure_of_eliminate herror
    obtain ⟨label, cause, rfl, hparse⟩ := hconveys.toReady.exists_label_of_eliminate herror
    obtain ⟨hhead, hfails⟩ := hlowest q _ hfailure
    rw [hrest] at hhead hfails
    refine ⟨q, label, cause, rfl, hparse, hfailure, hhead, hfails, fun quiet => ?_, fun n => ?_⟩
    · rw [runWith_eliminate h, eliminateAll_of_failure hsnapshot hfailure]
    · rw [runWith_draw h]
      split
      · rename_i hn
        rw [drawAutomaton_of_ok ((htake n).trans (Automaton.eliminateLowest_of_le hn)) rfl]
      · rename_i hn
        have hbeyond : eliminateLowest t n a = run :=
          Automaton.eliminateLowest_of_failure (hfailure ▸ nofun) (Nat.lt_of_not_le hn)
        exact drawAutomaton_of_failure ((htake n).trans hbeyond) hfailure

/-- Arguments with an expression and the signs of its operations that stand between two
operands. -/
def Arguments.binary (concat union : Option Char) (expression : String) : Arguments where
  sign
    | .star => none
    | .concat => concat
    | .union => union
  quiet := false
  tree := false
  rounds := 0
  expression := expression

/-- The table in which concatenation has a dot for its sign and union a bar. -/
def dotted : SymbolTable where
  star := '*'
  concat := '.'
  union := '|'
  legal := ⟨rfl, rfl, rfl⟩
  distinct := by decide

/-- The expression `a|b+c`, with the usual signs. -/
def letters : Regex :=
  .union (.concat (.operand (.char 'a')) (.operand (.char 'b'))) (.operand (.char 'c'))

/-- `a|b+c` comes back as it was put in: the first program prints it, and when the five inner
states are out the second one draws two states with one transition.  With the sign of
concatenation from an argument and that of union from the environment the same expression is
`a.b|c`, and comes back behind the lines of its steps.  Two dozen repetitions of a letter do not
come back, and what is reported is the label that is in the way. -/
theorem programs_agree_letters :
    CommandLine.run .eliminate ["-q", "a|b+c"] (fun _ => none) = ⟨"a|b+c\n", .success⟩ ∧
    (∃ b, CommandLine.run .draw ["-e", "5", "a|b+c"] (fun _ => none) =
      ⟨(Automaton.graph b).print ++ "\n", .success⟩ ∧ b.SaysOnly "a|b+c") ∧
    CommandLine.run .eliminate ["--concat", ".", "a.b|c"]
        (fun | .union => some "|" | _ => none) =
      ⟨"eliminate q0\n  q6 -> q1: a\neliminate q1\n  q6 -> q3: a.b\n" ++
        "eliminate q3\n  q6 -> q7: a.b\neliminate q4\n  q6 -> q5: c\n" ++
        "eliminate q5\n  q6 -> q7: a.b|c\na.b|c\n", .success⟩ ∧
    ∃ (steps : List Step) (q : State) (label : String) (cause : ParseError),
      CommandLine.run .eliminate ["a************************"] (fun _ => none) =
        ⟨trace steps, .failure ⟨"Error eliminating q" ++ toString q,
          ["Invalid transition label " ++ Text.quoteString label, cause.message]⟩⟩ := by
  have husual : ∀ text,
      SymbolTable.standard.rebindAll (Arguments.binary none none text).wishes = .ok .standard :=
    fun _ => rfl
  have hletters : Regex.parse .standard "a|b+c" = .ok letters := by cbv
  have hback : (ofRegex letters).eliminate .standard = .ok "a|b+c" := by cbv
  obtain ⟨-, -, -, -, hok, -⟩ := programs_agree (husual "a|b+c") hletters
  obtain ⟨-, hquiet, -, hdraw⟩ := hok "a|b+c" hback
  refine ⟨hquiet, ⟨_, (hdraw 5).1, (hdraw 5).2 (by cbv)⟩, ?_, ?_⟩
  · have hwishes : SymbolTable.standard.rebindAll
        (Arguments.binary (some '.') (some '|') "a.b|c").wishes = .ok dotted := rfl
    have hletters : Regex.parse dotted "a.b|c" = .ok letters := by cbv
    have hback : (ofRegex letters).eliminate dotted = .ok "a.b|c" := by cbv
    have hsteps : (eliminateLowest dotted (ofRegex letters).size (ofRegex letters)).steps =
        [⟨0, [⟨6, 1, "a"⟩]⟩, ⟨1, [⟨6, 3, "a.b"⟩]⟩, ⟨3, [⟨6, 7, "a.b"⟩]⟩, ⟨4, [⟨6, 5, "c"⟩]⟩,
          ⟨5, [⟨6, 7, "a.b|c"⟩]⟩] := by cbv
    obtain ⟨-, -, -, -, hok, -⟩ := programs_agree hwishes hletters
    obtain ⟨-, -, hreport, -⟩ := hok "a.b|c" hback
    rw [hsteps] at hreport
    exact hreport.trans (congrArg (Outcome.mk · .success) rfl)
  · have hstars : Regex.parse .standard "a************************" =
        .ok (Regex.starred 24 (.operand (.char 'a'))) := by cbv
    obtain ⟨-, -, -, -, -, herror⟩ := programs_agree (husual "a************************") hstars
    rcases hnever : (ofRegex (Regex.starred 24 (.operand (.char 'a')))).eliminate .standard with
      error | text
    · obtain ⟨q, label, cause, -, -, -, -, -, hfailure, -⟩ := herror error hnever
      exact ⟨_, q, label, cause, hfailure false⟩
    · exact absurd hnever
        (Automaton.eliminate_starred_ne_ok (c := 'a') rfl .standard (Nat.le_refl 24) text)

end CommandLine

end RegexAutomata
