/-
Requests to an automaton, checked before they are carried out.

A `Request` names one change.  `Automaton.perform` carries it out, or returns
the `Fault` that speaks against it: a state that is named but missing.  A
removal or a disconnection of what is not there is no fault and changes
nothing.
-/
import RegexAutomata.Automaton.Merge

namespace RegexAutomata

/-- A change that an automaton is asked for. -/
inductive Request where
  /-- Add a state. -/
  | addState
  /-- Take a state away. -/
  | removeState (q : State)
  /-- Put a transition. -/
  | connect (p q : State) (label : String)
  /-- Take a transition away. -/
  | disconnect (p q : State)
  /-- Name the initial state, or none. -/
  | setInitial (q : Option State)
  /-- Name the final state, or none. -/
  | setFinal (q : Option State)
  /-- Fold one state into another. -/
  | merge (keep absorb : State)

/-- What speaks against a request. -/
inductive Fault where
  /-- A transition or a fusion names a missing state. -/
  | noSuchState (q : State)
  /-- A role is to be given to a missing state. -/
  | noStateForRole (q : State)
  /-- The state to keep is missing, or is the one to be absorbed. -/
  | nothingToKeep
  deriving DecidableEq

/-- The wording of a fault. -/
def Fault.message : Fault → String
  | .noSuchState q => "No such state " ++ q.name
  | .noStateForRole q => "No such state Some(StateId(" ++ toString q ++ "))"
  | .nothingToKeep => "assertion failed: keep != absorb && self.contains(keep)"

namespace Automaton

/-- The first thing that speaks against a request.  Of the two ends of a
transition the one it enters is looked at first. -/
def fault? (a : Automaton) : Request → Option Fault
  | .addState => none
  | .removeState _ => none
  | .connect p q _ =>
    if !a.contains q then some (.noSuchState q)
    else if !a.contains p then some (.noSuchState p)
    else none
  | .disconnect _ _ => none
  | .setInitial q => q.bind fun q => if a.contains q then none else some (.noStateForRole q)
  | .setFinal q => q.bind fun q => if a.contains q then none else some (.noStateForRole q)
  | .merge keep absorb =>
    if keep = absorb || !a.contains keep then some .nothingToKeep
    else if !a.contains absorb then some (.noSuchState absorb)
    else none

/-- The automaton after a change. -/
def apply (a : Automaton) : Request → Automaton
  | .addState => a.addState
  | .removeState q => a.removeState q
  | .connect p q label => a.connect p q label
  | .disconnect p q => a.disconnect p q
  | .setInitial q => a.setInitial q
  | .setFinal q => a.setFinal q
  | .merge keep absorb => a.merge keep absorb

/-- Carry a request out, unless something speaks against it. -/
def perform (a : Automaton) (r : Request) : Except Fault Automaton :=
  match a.fault? r with
  | some f => .error f
  | none => .ok (a.apply r)

end Automaton

end RegexAutomata
