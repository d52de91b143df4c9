/-
What is written is in its final form.

A text is `Regex.Settled` if nothing is left to be done to it: it spells an expression
that no law shortens, it is what the printer writes for this expression, and it has no
needless brackets to be taken out.  Whatever is written while a state is eliminated is
settled (`WellLinked.settled_of_mem`), and so is an expression that is read off
(`settled_of_finalRegex`).  After any run, a label is settled or was there before the
run (`WellLinked.settled_eliminateEach`).

* `settled_of_written` — all of this, for every automaton that can be made.
-/
import RegexAutomata.Proofs.Bypassing
import RegexAutomata.Proofs.Ways

namespace RegexAutomata

/-- The text spells an expression that cannot be shortened, and is written as this
expression is written, without a needless bracket. -/
def Regex.Settled (t : SymbolTable) (text : String) : Prop :=
  ∃ e, Regex.parse t text = .ok e ∧ e.normalize = e ∧ e.display t = text ∧
    Regex.simplify t text = .ok text

namespace Automaton

open Regex (Normal Settled)

variable {a b : Automaton} {t : SymbolTable} {p q r : State} {e : Regex} {text label : String}
  {ws : List Rewrite} {w : Rewrite}

/-- A normal expression is settled as soon as it is written. -/
theorem settled_of_writeLabel (hnormal : e.Normal) (he : e.WellFormed)
    (h : writeLabel t e = .ok text) : Settled t text := by
  obtain ⟨hdisplay, hparse⟩ := (writeLabel_eq_ok_iff he).1 h
  refine ⟨e, hparse, hnormal.normalize_eq, hdisplay, ?_⟩
  rw [Regex.simplify_of_ok hparse, hdisplay]

/-! ### One step -/

theorem WellLinked.settled_of_mem (h : a.WellLinked) (hws : a.rewritesAround t q = .ok ws)
    (hw : w ∈ ws) : Settled t w.label := by
  obtain ⟨hs, ht, hd⟩ := detour_of_mem hws hw
  obtain ⟨hnormal, hwf, hwrite⟩ :=
    hd.writeLabel_eq_ok ((mem_sources h).1 hs).1 (mem_targets.1 ht).1
  exact settled_of_writeLabel hnormal hwf hwrite

/-- A label that was not there before the step was written by it. -/
theorem WellLinked.settled_of_label? (h : a.WellLinked)
    (hb : a.eliminateState t q = .ok (ws, b)) (hl : b.label? p r = some label) :
    a.label? p r = some label ∨ Settled t label := by
  obtain ⟨-, hws, -⟩ := eliminateState_eq_ok_iff.1 hb
  rw [label?_eliminateState h hb] at hl
  split at hl
  · simp at hl
  · rcases Option.or_eq_some_iff.1 hl with hnew | ⟨-, hold⟩
    · exact Or.inr (h.settled_of_mem hws (mem_of_written? hnew))
    · exact Or.inl hold

/-! ### Any number of steps -/

/-- All that a run writes is settled, and it leaves no other new labels behind. -/
theorem WellLinked.settled_eliminateEach (h : a.WellLinked) (t : SymbolTable)
    (qs : List State) :
    (∀ s ∈ (eliminateEach t qs a).steps, ∀ w ∈ s.rewrites, Settled t w.label) ∧
    ∀ p r label, (eliminateEach t qs a).rest.label? p r = some label →
      a.label? p r = some label ∨ Settled t label := by
  induction qs generalizing a with
  | nil =>
    refine ⟨fun s hs => ?_, fun p r label hl => Or.inl hl⟩
    simp [eliminateEach] at hs
  | cons q qs ih =>
    rw [eliminateEach]
    rcases hb : a.eliminateState t q with error | ⟨ws, b⟩
    · refine ⟨fun s hs => ?_, fun p r label hl => Or.inl hl⟩
      simp at hs
    · obtain ⟨-, hws, -⟩ := eliminateState_eq_ok_iff.1 hb
      obtain ⟨hsteps, hrest⟩ := ih (h.eliminateState hb)
      refine ⟨List.forall_mem_cons.2 ⟨fun w hw => h.settled_of_mem hws hw, hsteps⟩, ?_⟩
      intro p r label hl
      rcases hrest p r label hl with hold | hsettled
      · exact h.settled_of_label? hb hold
      · exact Or.inr hsettled

/-! ### Reading the expression off -/

theorem settled_of_finalRegex (h : a.finalRegex t = .ok text) : Settled t text := by
  obtain ⟨i, f, first, forth, back, second, -, -, hfirst, hforth, hback, hsecond, hwrite⟩ :=
    exists_of_finalRegex h
  refine settled_of_writeLabel ?_ ?_ hwrite
  · exact normal_throughTwo (normal_of_labelRegex hfirst) (normal_of_labelRegex hforth)
      (normal_of_labelRegex hback) (normal_of_labelRegex hsecond)
  · exact wellFormed_throughTwo (wellFormed_of_labelRegex hfirst)
      (wellFormed_of_labelRegex hforth) (wellFormed_of_labelRegex hback)
      (wellFormed_of_labelRegex hsecond)

/-- **What is written is settled.**  Every label that an elimination writes, and puts into
the automaton, spells an expression that no law shortens, in the way in which the printer
writes it; so does every expression that is read off, from two states or in the end.  The
labels after any run are such ones, or have not been touched. -/
theorem settled_of_written (h : a.Reachable) (t : SymbolTable) :
    (∀ q ws b, a.eliminateState t q = .ok (ws, b) → ∀ w ∈ ws,
      Settled t w.label ∧ b.label? w.source w.target = some w.label) ∧
    (∀ text, a.finalRegex t = .ok text → Settled t text) ∧
    (∀ text, a.eliminate t = .ok text → Settled t text) ∧
    ∀ qs, let run := eliminateEach t qs a
      (∀ s ∈ run.steps, ∀ w ∈ s.rewrites, Settled t w.label) ∧
      ∀ p r label, run.rest.label? p r = some label →
        a.label? p r = some label ∨ Settled t label := by
  refine ⟨fun q ws b hb w hw => ?_, fun text htext => settled_of_finalRegex htext,
    fun text htext => ?_, fun qs => h.wellLinked.settled_eliminateEach t qs⟩
  · obtain ⟨-, hws, -⟩ := eliminateState_eq_ok_iff.1 hb
    exact ⟨h.wellLinked.settled_of_mem hws hw,
      (h.wellLinked.bypasses_eliminateState hb).label?_written w hw⟩
  · exact of_eliminateWithin (P := fun _ => Settled t text)
      (fun _ hread => settled_of_finalRegex hread) (fun _ _ _ _ _ hrest => hrest) htext

/-- The labels `((a+b))` and `(c+∅)**` are read, shortened and written as `(a+b)|c*|b`, which
is what comes back in the end. -/
theorem settled_of_written_spelt :
    let a := ((ofRegex (.concat (.operand (.char 'a')) (.operand (.char 'b')))).connect 0 1
      "((a+b))").connect 1 1 "(c+∅)**"
    ∃ b, a.eliminateState .standard 1 = .ok ([⟨0, 3, "(a+b)|c*|b"⟩], b) ∧
      (Settled .standard "(a+b)|c*|b" ∧ b.label? 0 3 = some "(a+b)|c*|b") ∧
      a.eliminate .standard = .ok "(a+b)|c*|b" ∧ Settled .standard "(a+b)|c*|b" := by
  intro a
  have ha : a.Reachable :=
    ((Reachable.ofRegex _).connect (by cbv) (by cbv)).connect (by cbv) (by cbv)
  have hb : a.eliminateState .standard 1 = .ok ([⟨0, 3, "(a+b)|c*|b"⟩],
      (a.write [⟨0, 3, "(a+b)|c*|b"⟩]).removeState 1) := by
    subst a
    cbv
  have htext : a.eliminate .standard = .ok "(a+b)|c*|b" := by
    subst a
    cbv
  obtain ⟨hstep, -, hlast, -⟩ := settled_of_written ha .standard
  exact ⟨_, hb, hstep _ _ _ hb _ List.mem_cons_self, htext, hlast _ htext⟩

end Automaton

end RegexAutomata
