/-
When a state is not eliminated, and what is answered.

Before anything else the automaton has to be without a flaw (`Flawed`), then the state has
to be there, and then it may not be a terminal one.  What is left to go wrong are the labels
that are looked at (`Consults`) and the expressions that are put together of them
(`Combines`): a state is eliminated if and only if all of the former can be read and all of
the latter be written (`WellLinked.exists_rewritesAround_iff`).  In particular there is
always a way into the state, so that the labels on the ways out of it are not passed over
(`exists_mem_sources`).

* `refusals_of_elimination` — each answer just when it is due, and no label but those that
  are looked at makes a difference.
-/
import RegexAutomata.Proofs.Bypassing

namespace RegexAutomata.Automaton

open EliminationError (OfLabel)

variable {a b : Automaton} {t : SymbolTable} {p q r i f : State} {e : Regex} {label : String}
  {error : EliminationError} {ws : List Rewrite}

/-! ### What is checked beforehand -/

/-- A role is missing, both roles are with one state, or a state cannot be reached from
the initial one. -/
def Flawed (a : Automaton) : Prop :=
  a.initial = none ∨ a.final = none ∨ a.initial = a.final ∨
    ∃ i x, a.initial = some i ∧ a.contains x = true ∧ ¬ a.Reaches i x

theorem WellLinked.not_flawed_iff (h : a.WellLinked) :
    ¬ a.Flawed ↔ ∃ i f, a.terminals = .ok (i, f) ∧ a.isValid = true := by
  simp only [Flawed, not_or, not_exists, not_and, not_not]
  constructor
  · rintro ⟨hinitial, hfinal, hne, hreach⟩
    obtain ⟨i, hi⟩ := Option.ne_none_iff_exists'.1 hinitial
    obtain ⟨f, hf⟩ := Option.ne_none_iff_exists'.1 hfinal
    have hif : i ≠ f := fun hif => hne (by rw [hi, hf, hif])
    exact ⟨i, f, terminals_eq_ok_iff.2 ⟨hi, hf, hif⟩,
      h.isValid_iff.2 ⟨i, f, hi, hf, fun x hx => hreach i x hi hx⟩⟩
  · rintro ⟨i, f, hif, hvalid⟩
    obtain ⟨hi, hf, hne⟩ := terminals_eq_ok_iff.1 hif
    obtain ⟨i', -, hi', -, hreach⟩ := h.isValid_iff.1 hvalid
    rw [hi, Option.some_inj] at hi'
    subst hi'
    rw [hi, hf]
    refine ⟨by simp, by simp, by simpa using hne, fun x y hx => ?_⟩
    rw [Option.some_inj] at hx
    subst hx
    exact hreach y

theorem eq_invalidAutomaton_of_terminals (h : a.terminals = .error error) :
    error = .invalidAutomaton := by
  rw [terminals] at h
  split at h
  · split at h
    · cases h
      rfl
    · simp at h
  · cases h
    rfl

theorem WellLinked.checkInner_of_flawed (h : a.WellLinked) (hflawed : a.Flawed) (q : State) :
    a.checkInner q = .error .invalidAutomaton := by
  rcases hterminals : a.terminals with error | ⟨i, f⟩
  · rw [checkInner, hterminals, eq_invalidAutomaton_of_terminals hterminals]
    rfl
  · have hvalid : a.isValid = false := by
      by_contra hvalid
      rw [Bool.not_eq_false] at hvalid
      exact h.not_flawed_iff.2 ⟨i, f, hterminals, hvalid⟩ hflawed
    rw [checkInner, hterminals, hvalid]
    rfl

/-- Without a flaw, the state itself is looked at. -/
theorem WellLinked.checkInner_of_not_flawed (h : a.WellLinked) (hflawed : ¬ a.Flawed)
    (q : State) :
    a.checkInner q =
      if !a.contains q then .error (.unknownState q)
      else if a.isTerminal q then .error (.terminalState q)
      else .ok () := by
  obtain ⟨i, f, hif, hvalid⟩ := h.not_flawed_iff.1 hflawed
  rw [checkInner, hif, hvalid]
  rfl

theorem isTerminal_iff : a.isTerminal q = true ↔ a.initial = some q ∨ a.final = some q := by
  rw [isTerminal, Bool.or_eq_true, decide_eq_true_eq, decide_eq_true_eq]

theorem eliminateState_of_error (h : a.checkInner q = .error error) :
    a.eliminateState t q = .error error := by
  rw [Automaton.eliminateState, h]
  rfl

/-- Once the checks are passed, it fails only if nothing can be written around the
state. -/
theorem eliminateState_eq_error_iff (h : a.checkInner q = .ok ()) :
    a.eliminateState t q = .error error ↔ a.rewritesAround t q = .error error := by
  rw [Automaton.eliminateState, h]
  show (a.rewritesAround t q >>= fun ws => .ok (ws, (a.write ws).removeState q)) = _ ↔ _
  rw [bind_eq_error_iff]
  simp

/-! ### The labels -/

theorem exists_labelRegex_iff :
    (∃ e, a.labelRegex t p r = .ok e) ↔
      ∀ label, a.label? p r = some label → ∃ e, Regex.parse t label = .ok e := by
  rw [labelRegex]
  rcases a.label? p r with _ | text
  · simp
  · constructor
    · rintro ⟨e, he⟩ label hlabel
      cases hlabel
      obtain ⟨e', he', -⟩ := readLabel_eq_ok_iff.1 he
      exact ⟨e', he'⟩
    · intro hread
      obtain ⟨e, he⟩ := hread text rfl
      exact ⟨e.normalize, readLabel_eq_ok_iff.2 ⟨e, he, rfl⟩⟩

theorem labelRegex_eq_error_iff :
    a.labelRegex t p r = .error error ↔
      ∃ label cause, a.label? p r = some label ∧ Regex.parse t label = .error cause ∧
        error = .label label cause := by
  rw [labelRegex]
  rcases a.label? p r with _ | text
  · simp
  · show readLabel t text = _ ↔ _
    rw [readLabel]
    rcases hparse : Regex.parse t text with cause | e
    · constructor
      · intro herror
        cases herror
        exact ⟨text, cause, rfl, hparse, rfl⟩
      · rintro ⟨_, _, heq, hparse', rfl⟩
        cases heq
        rw [hparse, Except.error.injEq] at hparse'
        rw [hparse']
    · constructor
      · intro herror
        cases herror
      · rintro ⟨_, _, heq, hparse', -⟩
        cases heq
        rw [hparse] at hparse'
        cases hparse'

/-! ### The transitions around an inner state -/

/-- On the way to a state there is a last one before it. -/
theorem exists_leads_of_reaches (hreach : a.Reaches i q) (hne : q ≠ i) :
    ∃ p, p ≠ q ∧ a.Leads p q := by
  induction hreach with
  | refl => exact absurd rfl hne
  | @tail y z _ hleads ih =>
    by_cases hyz : y = z
    · -- a loop at the end of the way can be left out
      subst hyz
      exact ih hne
    · exact ⟨y, hyz, hleads⟩

theorem exists_mem_sources (h : a.WellLinked) (hcheck : a.checkInner q = .ok ()) :
    ∃ p, p ∈ a.sources q := by
  obtain ⟨i, f, hif, hvalid, hmem, hqi, -⟩ := checkInner_eq_ok_iff.1 hcheck
  obtain ⟨hi, -, -⟩ := terminals_eq_ok_iff.1 hif
  obtain ⟨i', -, hi', -, hreach⟩ := h.isValid_iff.1 hvalid
  rw [hi, Option.some_inj] at hi'
  subst hi'
  obtain ⟨p, hp, hleads⟩ := exists_leads_of_reaches (hreach q hmem) hqi
  exact ⟨p, (mem_sources h).2 ⟨hp, hleads⟩⟩

/-- The label on a way into the state is read even if no way leads out of it. -/
theorem exists_labelRegex_of_mem_sources (hws : a.rewritesAround t q = .ok ws)
    (hp : p ∈ a.sources q) : ∃ into, a.labelRegex t p q = .ok into := by
  obtain ⟨loop, -, hws⟩ := bind_eq_ok_iff.1 hws
  obtain ⟨wss, hwss, -⟩ := bind_eq_ok_iff.1 hws
  obtain ⟨row, -, hrow⟩ := exists_mem_right_of_forall₂ (forall₂_of_mapM hwss) hp
  obtain ⟨into, hinto, -⟩ := bind_eq_ok_iff.1 hrow
  exact ⟨into, hinto⟩

theorem exists_detour (hws : a.rewritesAround t q = .ok ws) (hp : p ∈ a.sources q)
    (hr : r ∈ a.targets q) : ∃ label, a.Detour t q ⟨p, r, label⟩ := by
  obtain ⟨label, hw⟩ := exists_mem_rewritesAround hws hp hr
  exact ⟨label, (detour_of_mem hws hw).2.2⟩

/-- All transitions that are looked at can be read. -/
theorem WellLinked.exists_labelRegex_of_consults (h : a.WellLinked)
    (hsource : ∃ p, p ∈ a.sources q) (hws : a.rewritesAround t q = .ok ws)
    (hpr : a.Consults q p r) (hl : a.label? p r = some label) :
    ∃ e, a.labelRegex t p r = .ok e := by
  have hloop : ∃ loop, a.labelRegex t q q = .ok loop := by
    obtain ⟨loop, hloop, -⟩ := bind_eq_ok_iff.1 hws
    exact ⟨loop, hloop⟩
  rcases hpr with rfl | rfl | ⟨hp, hr⟩
  · by_cases hrp : r = p
    · exact hrp ▸ hloop
    · -- the way out is read on a detour from any source
      obtain ⟨s, hs⟩ := hsource
      obtain ⟨_, _, _, _, out, -, -, -, hout, -⟩ :=
        exists_detour hws hs (mem_targets.2 ⟨hrp, label, hl⟩)
      exact ⟨out, hout⟩
  · by_cases hpr : p = r
    · exact hpr ▸ hloop
    · exact exists_labelRegex_of_mem_sources hws ((mem_sources h).2 ⟨hpr, label, hl⟩)
  · obtain ⟨_, direct, _, _, _, hdirect, -⟩ := exists_detour hws hp hr
    exact ⟨direct, hdirect⟩

/-- All that is put together is written. -/
theorem writable_of_combines (hws : a.rewritesAround t q = .ok ws) (he : a.Combines t q e) :
    e.Writable t := by
  have hwf := wellFormed_of_combines he
  obtain ⟨p, hp, r, hr, direct, into, loop, out, hd, hi, hl, ho, rfl⟩ := he
  obtain ⟨label, direct', into', loop', out', hd', hi', hl', ho', hwrite⟩ :=
    exists_detour hws hp hr
  -- the detour was put together of the same four labels
  rw [hd, Except.ok.injEq] at hd'
  rw [hi, Except.ok.injEq] at hi'
  rw [hl, Except.ok.injEq] at hl'
  rw [ho, Except.ok.injEq] at ho'
  subst hd' hi' hl' ho'
  exact writable_of_writeLabel hwf hwrite

/-- The transitions around a state that is entered are written if and only if all labels
that are looked at can be read and all that is put together of them keeps to the limits. -/
theorem WellLinked.exists_rewritesAround_iff (h : a.WellLinked)
    (hsource : ∃ p, p ∈ a.sources q) :
    (∃ ws, a.rewritesAround t q = .ok ws) ↔
      (∀ p r label, a.Consults q p r → a.label? p r = some label →
        ∃ e, Regex.parse t label = .ok e) ∧
      ∀ e, a.Combines t q e → e.Writable t := by
  constructor
  · rintro ⟨ws, hws⟩
    refine ⟨fun p r label hpr hl => ?_, fun e he => writable_of_combines hws he⟩
    exact exists_labelRegex_iff.1 (h.exists_labelRegex_of_consults hsource hws hpr hl) label hl
  · rintro ⟨hread, hwritable⟩
    rcases hws : a.rewritesAround t q with error | ws
    · rcases cases_of_rewritesAround_eq_error hws with ⟨p, r, hpr, herror⟩ | ⟨e, he, herror⟩
      · obtain ⟨e, hok⟩ := exists_labelRegex_iff.2 fun label hl => hread p r label hpr hl
        rw [hok] at herror
        simp at herror
      · have hwf := wellFormed_of_combines he
        exact absurd (hwritable e he) ((writeLabel_eq_error_iff hwf).1 herror).1
    · exact ⟨ws, rfl⟩

/-! ### The answers -/

/-- What is answered when a state is to be eliminated. -/
structure Answers (t : SymbolTable) (a : Automaton) (q : State) : Prop where
  /-- Nothing is looked at before the automaton is. -/
  invalid_iff : a.eliminateState t q = .error .invalidAutomaton ↔ a.Flawed
  /-- Next is whether the state is there. -/
  unknown_iff : ¬ a.Flawed →
    (a.eliminateState t q = .error (.unknownState q) ↔ a.contains q = false)
  /-- Then come the roles. -/
  terminal_iff : ¬ a.Flawed → a.contains q = true →
    (a.eliminateState t q = .error (.terminalState q) ↔
      a.initial = some q ∨ a.final = some q)
  /-- An inner state is eliminated if the labels can be read, and the new ones be
  written. -/
  ok_iff : ¬ a.Flawed → q ∈ a.innerStates →
    ((∃ ws b, a.eliminateState t q = .ok (ws, b)) ↔
      (∀ p r label, a.Consults q p r → a.label? p r = some label →
        ∃ e, Regex.parse t label = .ok e) ∧
      ∀ e, a.Combines t q e → e.Writable t)
  /-- Otherwise the answer is such a label with the reader's error, or the print of a new
  one with the limit that it exceeds. -/
  label_of_error : ¬ a.Flawed → q ∈ a.innerStates →
    ∀ error, a.eliminateState t q = .error error →
      (∃ p r label cause, a.Consults q p r ∧ a.label? p r = some label ∧
        Regex.parse t label = .error cause ∧ error = .label label cause) ∨
      ∃ e, a.Combines t q e ∧ ¬ e.Writable t ∧ error = limitError t e

/-- The answers in the order of the checks. -/
theorem WellLinked.eliminateState_cases (h : a.WellLinked) (t : SymbolTable) (q : State) :
    (a.Flawed ∧ a.eliminateState t q = .error .invalidAutomaton) ∨
    (¬ a.Flawed ∧ a.contains q = false ∧ a.eliminateState t q = .error (.unknownState q)) ∨
    (¬ a.Flawed ∧ a.contains q = true ∧ a.isTerminal q = true ∧
      a.eliminateState t q = .error (.terminalState q)) ∨
    (¬ a.Flawed ∧ q ∈ a.innerStates ∧ a.checkInner q = .ok () ∧
      FailsOnly OfLabel (a.eliminateState t q)) := by
  by_cases hflawed : a.Flawed
  · exact Or.inl ⟨hflawed, eliminateState_of_error (h.checkInner_of_flawed hflawed q)⟩
  · have hcheck := h.checkInner_of_not_flawed hflawed q
    obtain ⟨i, f, hif, hvalid⟩ := h.not_flawed_iff.1 hflawed
    rcases hmem : a.contains q with _ | _
    · rw [hmem] at hcheck
      exact Or.inr (Or.inl ⟨hflawed, rfl, eliminateState_of_error hcheck⟩)
    · rcases hterminal : a.isTerminal q with _ | _
      · have hq : q ∈ a.innerStates := mem_innerStates.2 ⟨hmem, by simp [hterminal]⟩
        rw [hmem, hterminal] at hcheck
        exact Or.inr (Or.inr (Or.inr
          ⟨hflawed, hq, hcheck, failsOnly_eliminateState hif hvalid hq⟩))
      · rw [hmem, hterminal] at hcheck
        exact Or.inr (Or.inr (Or.inl ⟨hflawed, rfl, rfl, eliminateState_of_error hcheck⟩))

theorem WellLinked.answers (h : a.WellLinked) (t : SymbolTable) (q : State) :
    Answers t a q := by
  rcases h.eliminateState_cases t q with ⟨hflawed, heq⟩ | ⟨hflawed, hmem, heq⟩ |
    ⟨hflawed, hmem, hterminal, heq⟩ | ⟨hflawed, hq, hcheck, honly⟩
  · exact
      { invalid_iff := iff_of_true heq hflawed
        unknown_iff := fun hnot => absurd hflawed hnot
        terminal_iff := fun hnot => absurd hflawed hnot
        ok_iff := fun hnot => absurd hflawed hnot
        label_of_error := fun hnot => absurd hflawed hnot }
  · have hinner : q ∉ a.innerStates := fun hq => by
      rw [mem_innerStates, hmem] at hq
      simp at hq
    exact
      { invalid_iff := iff_of_false (by simp [heq]) hflawed
        unknown_iff := fun _ => iff_of_true heq hmem
        terminal_iff := fun _ hthere => by simp [hmem] at hthere
        ok_iff := fun _ hq => absurd hq hinner
        label_of_error := fun _ hq => absurd hq hinner }
  · have hinner : q ∉ a.innerStates := fun hq => (mem_innerStates.1 hq).2 hterminal
    exact
      { invalid_iff := iff_of_false (by simp [heq]) hflawed
        unknown_iff := fun _ => iff_of_false (by simp [heq]) (by simp [hmem])
        terminal_iff := fun _ _ => iff_of_true heq (isTerminal_iff.1 hterminal)
        ok_iff := fun _ hq => absurd hq hinner
        label_of_error := fun _ hq => absurd hq hinner }
  · obtain ⟨hmem, hterminal⟩ := mem_innerStates.1 hq
    have hne : ∀ error, ¬ OfLabel error → a.eliminateState t q ≠ .error error :=
      fun error hnot herror => hnot (honly error herror)
    exact
      { invalid_iff := iff_of_false (hne _ (by simp [OfLabel])) hflawed
        unknown_iff := fun _ => iff_of_false (hne _ (by simp [OfLabel])) (by simp [hmem])
        terminal_iff := fun _ _ =>
          iff_of_false (hne _ (by simp [OfLabel])) (isTerminal_iff.not.1 hterminal)
        ok_iff := fun _ _ => by
          rw [← h.exists_rewritesAround_iff (exists_mem_sources h hcheck)]
          constructor
          · rintro ⟨ws, b, hb⟩
            exact ⟨ws, (eliminateState_eq_ok_iff.1 hb).2.1⟩
          · rintro ⟨ws, hws⟩
            exact ⟨ws, _, eliminateState_eq_ok_iff.2 ⟨hcheck, hws, rfl⟩⟩
        label_of_error := fun _ _ error herror => by
          rw [eliminateState_eq_error_iff hcheck] at herror
          rcases cases_of_rewritesAround_eq_error herror with ⟨p, r, hpr, hread⟩ | ⟨e, he, hwrite⟩
          · obtain ⟨label, cause, hl, hparse, rfl⟩ := labelRegex_eq_error_iff.1 hread
            exact Or.inl ⟨p, r, label, cause, hpr, hl, hparse, rfl⟩
          · exact Or.inr ⟨e, he, (writeLabel_eq_error_iff (wellFormed_of_combines he)).1 hwrite⟩ }

/-! ### What makes no difference -/

/-- Two automata have the same states, roles and transitions, whatever the labels on these
are. -/
structure SameGraph (a b : Automaton) : Prop where
  contains_eq : ∀ x, a.contains x = b.contains x
  initial_eq : a.initial = b.initial
  final_eq : a.final = b.final
  leads_iff : ∀ p r, a.Leads p r ↔ b.Leads p r

/-- What stands on a transition does not matter to the graph. -/
theorem sameGraph_connect (hp : a.contains p = true) (hr : a.contains r = true)
    (label label' : String) : SameGraph (a.connect p r label) (a.connect p r label') where
  contains_eq x := by rw [contains_connect, contains_connect]
  initial_eq := by rw [initial_connect, initial_connect]
  final_eq := by rw [final_connect, final_connect]
  leads_iff x y := by
    rw [Leads, Leads, label?_connect hp hr, label?_connect hp hr]
    split
    · simp
    · exact Iff.rfl

namespace SameGraph

theorem sources_eq (h : SameGraph a b) (ha : a.WellLinked) (hb : b.WellLinked) (q : State) :
    a.sources q = b.sources q := by
  refine (pairwise_sources a q).eq_of_mem_iff (pairwise_sources b q) fun p => ?_
  rw [mem_sources ha, mem_sources hb]
  exact and_congr_right fun _ => h.leads_iff p q

theorem targets_eq (h : SameGraph a b) (q : State) : a.targets q = b.targets q := by
  refine (pairwise_targets a q).eq_of_mem_iff (pairwise_targets b q) fun r => ?_
  rw [mem_targets, mem_targets]
  exact and_congr_right fun _ => h.leads_iff q r

/-- Whether an automaton is valid does not depend on its labels. -/
theorem isValid_eq (h : SameGraph a b) (ha : a.WellLinked) (hb : b.WellLinked) :
    a.isValid = b.isValid := by
  have hreaches : a.Reaches = b.Reaches := by
    have hleads : a.Leads = b.Leads := by
      funext p r
      exact propext (h.leads_iff p r)
    rw [Reaches, Reaches, hleads]
  rw [Bool.eq_iff_iff, ha.isValid_iff, hb.isValid_iff]
  simp only [h.initial_eq, h.final_eq, h.contains_eq, hreaches]

theorem checkInner_eq (h : SameGraph a b) (ha : a.WellLinked) (hb : b.WellLinked) (q : State) :
    a.checkInner q = b.checkInner q := by
  rw [checkInner, checkInner, terminals, terminals, isTerminal, isTerminal, h.initial_eq,
    h.final_eq, h.contains_eq, h.isValid_eq ha hb]

theorem rewritesAround_eq (h : SameGraph a b) (ha : a.WellLinked) (hb : b.WellLinked)
    (hlabels : ∀ p r, a.Consults q p r → a.label? p r = b.label? p r) :
    a.rewritesAround t q = b.rewritesAround t q := by
  have hread : ∀ p r, a.Consults q p r → a.labelRegex t p r = b.labelRegex t p r := by
    intro p r hpr
    rw [labelRegex, labelRegex, hlabels p r hpr]
  have hrow : ∀ loop, ∀ p ∈ a.sources q,
      a.rewritesFrom t q loop (a.targets q) p = b.rewritesFrom t q loop (a.targets q) p := by
    intro loop p hp
    rw [rewritesFrom, rewritesFrom, hread p q (Or.inr (Or.inl rfl))]
    refine bind_congr fun into => mapM_congr fun r hr => ?_
    rw [hread p r (Or.inr (Or.inr ⟨hp, hr⟩)), hread q r (Or.inl rfl)]
  show (a.labelRegex t q q >>= fun loop =>
      (a.sources q).mapM (a.rewritesFrom t q loop (a.targets q)) >>= fun rows =>
        .ok rows.flatten) =
    (b.labelRegex t q q >>= fun loop =>
      (b.sources q).mapM (b.rewritesFrom t q loop (b.targets q)) >>= fun rows =>
        .ok rows.flatten)
  rw [hread q q (Or.inl rfl), ← h.sources_eq ha hb, ← h.targets_eq]
  refine bind_congr fun loop => ?_
  rw [mapM_congr (hrow loop)]

/-- The outcome is the same where the labels that are looked at are the same. -/
theorem eliminateState_eq (h : SameGraph a b) (ha : a.WellLinked) (hb : b.WellLinked)
    (hlabels : ∀ p r, a.Consults q p r → a.label? p r = b.label? p r) :
    (a.eliminateState t q).map Prod.fst = (b.eliminateState t q).map Prod.fst := by
  have houtcome : ∀ c : Automaton, (c.eliminateState t q).map Prod.fst =
      c.checkInner q >>= fun _ => c.rewritesAround t q := by
    intro c
    rw [Automaton.eliminateState]
    rcases c.checkInner q with error | ⟨⟩
    · rfl
    · rcases c.rewritesAround t q with error | ws
      · rfl
      · rfl
  rw [houtcome, houtcome, h.checkInner_eq ha hb, h.rewritesAround_eq ha hb hlabels]

end SameGraph

/-- **When a state is not eliminated.**  The automaton, the state and its role are checked in
this order, and each answer is given just when it is due; past them a state is eliminated if
and only if all labels that are looked at can be read and all expressions that are put
together of them keep to the limits, and otherwise the answer is one of these labels or
expressions, with what is wrong with it.  Labels that are not looked at make no difference
to the outcome. -/
theorem refusals_of_elimination (h : a.Reachable) (t : SymbolTable) (q : State) :
    Answers t a q ∧
    ∀ b : Automaton, b.Reachable → SameGraph a b →
      (∀ p r, a.Consults q p r → a.label? p r = b.label? p r) →
      (a.eliminateState t q).map Prod.fst = (b.eliminateState t q).map Prod.fst := by
  refine ⟨h.wellLinked.answers t q, fun b hb hsame hlabels => ?_⟩
  exact hsame.eliminateState_eq h.wellLinked hb.wellLinked hlabels

/-- Nothing can be read on the loop at the final state, and the inner state is eliminated
all the same; a label on a way out of it that cannot be read is what is answered. -/
theorem refusals_of_elimination_unread :
    let a := ofRegex (.concat (.operand (.char 'a')) (.operand (.char 'b')))
    let b := a.connect 3 3 "#"
    let c := b.connect 1 3 "b c"
    (b.eliminateState .standard 1).map Prod.fst =
      ((a.connect 3 3 "c").eliminateState .standard 1).map Prod.fst ∧
    (b.eliminateState .standard 1).map Prod.fst = .ok [⟨0, 3, "a|b"⟩] ∧
    c.eliminateState .standard 1 = .error (.label "b c" (.illegalAlphabet ' ' 1)) ∧
    ((∃ p r label cause, c.Consults 1 p r ∧ c.label? p r = some label ∧
        Regex.parse .standard label = .error cause ∧
        EliminationError.label "b c" (.illegalAlphabet ' ' 1) = .label label cause) ∨
      ∃ e, c.Combines .standard 1 e ∧ ¬ e.Writable .standard ∧
        .label "b c" (.illegalAlphabet ' ' 1) = limitError .standard e) := by
  intro a b c
  have hthree : a.contains 3 = true := by
    subst a
    cbv
  have hone : b.contains 1 = true ∧ b.contains 3 = true := by
    subst a b
    exact ⟨by cbv, by cbv⟩
  have ha : a.Reachable := Reachable.ofRegex _
  have hb : b.Reachable := ha.connect hthree hthree
  have hc : c.Reachable := hb.connect hone.1 hone.2
  have hrewrites : (b.eliminateState .standard 1).map Prod.fst = .ok [⟨0, 3, "a|b"⟩] := by
    subst a b
    cbv
  have herror : c.eliminateState .standard 1 =
      .error (.label "b c" (.illegalAlphabet ' ' 1)) := by
    subst a b c
    cbv
  refine ⟨?_, hrewrites, herror, ?_⟩
  · refine (refusals_of_elimination hb .standard 1).2 _ (ha.connect hthree hthree)
      (sameGraph_connect hthree hthree _ _) fun p r hpr => ?_
    have hsources : b.sources 1 = [0] := by
      subst a b
      cbv
    have hne : ¬ (p = 3 ∧ r = 3) := by
      rintro ⟨rfl, rfl⟩
      simp [Consults, hsources] at hpr
    rw [label?_connect hthree hthree, label?_connect hthree hthree, if_neg hne, if_neg hne]
  · have hanswers := (refusals_of_elimination hc .standard 1).1
    have hflawed : ¬ c.Flawed := fun hflawed => by
      have hinvalid := hanswers.invalid_iff.2 hflawed
      rw [herror] at hinvalid
      simp at hinvalid
    have hinner : c.innerStates = [1] := by
      subst a b c
      cbv
    exact hanswers.label_of_error hflawed (by rw [hinner]; exact List.mem_cons_self) _ herror

end RegexAutomata.Automaton
