/-
Building an automaton from an expression.

Every expression becomes a `Fragment`, a part of the automaton with one way in
and one way out, whose transitions carry single operands.

* An operand is a transition between two new states.
* For a concatenation the exit of the left fragment absorbs the entry of the
  right one.
* For a repetition or a union a new entry and a new exit are joined to the
  parts by transitions that carry the empty string.
-/
import RegexAutomata.Automaton.Merge
import RegexAutomata.Regex.Basic

namespace RegexAutomata

/-- A part of an automaton with one way in and one way out. -/
structure Fragment where
  /-- The state where it is entered. -/
  entry : State
  /-- The state where it is left. -/
  exit : State
  deriving DecidableEq

namespace Automaton

/-- Add two states, the ends of a fragment. -/
def addEnds (a : Automaton) : Fragment × Automaton :=
  (⟨a.nextState, a.nextState + 1⟩, a.addState.addState)

/-- Join two states by a transition that reads nothing. -/
def joinEmpty (a : Automaton) (p q : State) : Automaton :=
  a.connect p q Operand.emptyString.print

/-- Build the fragment of an expression into an automaton. -/
def buildInto : Regex → Automaton → Fragment × Automaton
  | .operand o, a =>
    let (ends, a) := a.addEnds
    (ends, a.connect ends.entry ends.exit o.print)
  | .star e, a =>
    let (inner, a) := buildInto e a
    let (ends, a) := a.addEnds
    (ends, (((a.joinEmpty ends.entry inner.entry).joinEmpty inner.exit ends.exit).joinEmpty
      inner.exit inner.entry).joinEmpty ends.entry ends.exit)
  | .concat l r, a =>
    let (left, a) := buildInto l a
    let (right, a) := buildInto r a
    (⟨left.entry, right.exit⟩, a.merge left.exit right.entry)
  | .union l r, a =>
    let (left, a) := buildInto l a
    let (right, a) := buildInto r a
    let (ends, a) := a.addEnds
    (ends, (((a.joinEmpty ends.entry left.entry).joinEmpty ends.entry right.entry).joinEmpty
      left.exit ends.exit).joinEmpty right.exit ends.exit)

/-- The automaton of an expression. -/
def ofRegex (e : Regex) : Automaton :=
  let (ends, a) := buildInto e .empty
  (a.setInitial (some ends.entry)).setFinal (some ends.exit)

end Automaton

end RegexAutomata
