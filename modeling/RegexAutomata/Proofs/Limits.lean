/-
Which expressions come back from their automata.

Turning the automaton of an expression back comes down to writing expressions that
are determined beforehand: those that arise when its states are taken out of its
ways one after another (`Arises`).  If all of them keep to the limits it succeeds,
and so does the program that eliminates all states; otherwise one that does not is
what it is answered with (`eliminate_iff_writable`).

Not every expression within the limits comes back, as repetitions inside one
another show.
-/
import RegexAutomata.CommandLine.Programs
import RegexAutomata.Proofs.Repetition

namespace RegexAutomata.Automaton

open Regex

variable {a : Automaton} {t : SymbolTable} {e : Regex} {text : String} {i f : State}

/-- The expressions that arise while an automaton is turned into one: those between
its states, before any state is taken out and after each one, and the one that is
read off in the end. -/
def Arises (t : SymbolTable) (a : Automaton) (e : Regex) : Prop :=
  ∃ i f, a.terminals = .ok (i, f) ∧ Ways.Arises i f a.innerStates (a.ways t) e

theorem arises_iff (hif : a.terminals = .ok (i, f)) :
    a.Arises t e ↔ Ways.Arises i f a.innerStates (a.ways t) e := by
  constructor
  · rintro ⟨i', f', hif', h⟩
    rw [hif, Except.ok.injEq, Prod.mk.injEq] at hif'
    obtain ⟨rfl, rfl⟩ := hif'
    exact h
  · exact fun h => ⟨i, f, hif, h⟩

/-- Either an expression comes back, and all expressions that arise keep to the
limits, or it is answered with one that does not. -/
theorem eliminate_cases (he : e.WellFormed) (t : SymbolTable) :
    ((∃ out, (ofRegex e).eliminate t = .ok out) ∧
        ∀ x, (ofRegex e).Arises t x → x.Writable t) ∨
      ∃ x, (ofRegex e).Arises t x ∧ ¬ x.Writable t ∧
        (ofRegex e).eliminate t = .error (limitError t x) := by
  simp only [arises_iff (terminals_ofRegex e)]
  exact (ready_ofRegex he t).eliminateWithin_cases (terminals_ofRegex e)
    (writable_ways_ofRegex he t) (length_innerStates_le _)

/-- The program that eliminates all states and reports on them ends well where the
elimination does. -/
theorem status_eliminateAll (t : SymbolTable) (quiet : Bool) (e : Regex) :
    (CommandLine.eliminateAll t quiet e).status = .success ↔
      ∃ out, (ofRegex e).eliminate t = .ok out := by
  rw [eliminate, eliminateWithin_eq_eliminateEach (length_innerStates_le _),
    CommandLine.eliminateAll, CommandLine.runStatus]
  rcases (eliminateEach t (ofRegex e).innerStates (ofRegex e)).failure with _ | ⟨q, error⟩
  · dsimp only
    rcases (eliminateEach t (ofRegex e).innerStates (ofRegex e)).rest.finalRegex t with
      error | out
    · simp
    · simp
  · simp

/-- **What is in the way.**  An expression that can be read comes back from its
automaton if and only if all expressions that arise on the way keep to the limits;
if it does not come back, the answer is one that exceeds them. -/
theorem eliminate_iff_writable (h : Regex.parse t text = .ok e) :
    ((∃ out, (ofRegex e).eliminate t = .ok out) ↔
      ∀ x, (ofRegex e).Arises t x → x.Writable t) ∧
    (∀ error, (ofRegex e).eliminate t = .error error →
      ∃ x, (ofRegex e).Arises t x ∧ ¬ x.Writable t ∧ error = limitError t x) ∧
    ∀ quiet, (CommandLine.eliminateAll t quiet e).status = .success ↔
      ∀ x, (ofRegex e).Arises t x → x.Writable t := by
  simp only [status_eliminateAll, forall_const]
  rcases eliminate_cases (wellFormed_of_parse h) t with ⟨⟨out, hout⟩, hall⟩ | ⟨x, hx, hw, herror⟩
  · have hiff : (∃ out, (ofRegex e).eliminate t = .ok out) ↔
        ∀ x, (ofRegex e).Arises t x → x.Writable t := ⟨fun _ => hall, fun _ => ⟨out, hout⟩⟩
    refine ⟨hiff, fun error herror => ?_, hiff⟩
    rw [hout] at herror
    simp at herror
  · have hiff : (∃ out, (ofRegex e).eliminate t = .ok out) ↔
        ∀ x, (ofRegex e).Arises t x → x.Writable t := by
      refine ⟨fun ⟨out, hout⟩ => ?_, fun hall => absurd (hall x hx) hw⟩
      rw [herror] at hout
      simp at hout
    refine ⟨hiff, fun error herror' => ⟨x, hx, hw, ?_⟩, hiff⟩
    rw [herror, Except.error.injEq] at herror'
    exact herror'.symm

/-- `(a+b)*` comes back, so all that arises on the way keeps to the limits, and the
program ends well. -/
theorem eliminate_iff_writable_letters :
    Regex.parse .standard "(a+b)*" =
        .ok (.star (.union (.operand (.char 'a')) (.operand (.char 'b')))) ∧
      (∀ x, (ofRegex (.star (.union (.operand (.char 'a')) (.operand (.char 'b'))))).Arises
        .standard x → x.Writable .standard) ∧
      (CommandLine.eliminateAll .standard false
        (.star (.union (.operand (.char 'a')) (.operand (.char 'b'))))).status = .success := by
  have hparse : Regex.parse .standard "(a+b)*" =
      .ok (.star (.union (.operand (.char 'a')) (.operand (.char 'b')))) := by cbv
  have heliminate :
      (ofRegex (.star (.union (.operand (.char 'a')) (.operand (.char 'b'))))).eliminate
        .standard = .ok "(a+b)*" := by cbv
  obtain ⟨hiff, -, hprogram⟩ := eliminate_iff_writable hparse
  have hall := hiff.1 ⟨_, heliminate⟩
  exact ⟨hparse, hall, (hprogram false).2 hall⟩

/-- A letter with two dozen repetitions can be read, but does not come back. -/
theorem not_eliminate_two_dozen_repetitions :
    ∃ e, Regex.parse .standard "a************************" = .ok e ∧
      (∀ out, (ofRegex e).eliminate .standard ≠ .ok out) ∧
      ∀ quiet, (CommandLine.eliminateAll .standard quiet e).status ≠ .success := by
  have hne := eliminate_starred_ne_ok (c := 'a') rfl .standard (Nat.le_refl 24)
  refine ⟨starred 24 (.operand (.char 'a')), by cbv, hne, fun quiet h => ?_⟩
  obtain ⟨out, hout⟩ := (status_eliminateAll .standard quiet _).1 h
  exact hne out hout

end RegexAutomata.Automaton
