/-
Automata whose transitions carry written expressions.

An `Automaton` has numbered states, at most one transition from a state to
another (or to itself), and may name one state as its initial and one as its
final state.  A state's number is its place in `Automaton.rows`; a state that
is removed leaves a hole behind, so that a number is never given out twice.
Numbers are unbounded.  A counter of 32 bits would overflow after `2 ^ 32`
states; that so many are ever made is ruled out.

A transition is written down at both its ends: in `Links.out` of the state it
leaves and in `Links.into` of the state it enters.

* `addState`, `removeState`, `connect`, `disconnect`, `setInitial` and
  `setFinal` make another automaton; where a state that they name is missing
  they change nothing;
* `label?`, `successors`, `predecessors`, `states` and `transitions` look an
  automaton up, always in ascending order.
-/
import RegexAutomata.NatMap

namespace RegexAutomata

/-- A state, by its number. -/
abbrev State := Nat

/-- The written name of a state. -/
def State.name (q : State) : String := "q" ++ toString q

/-- The transitions at one state. -/
structure Links where
  /-- The labels of the transitions that leave, by the state they enter. -/
  out : NatMap String
  /-- The labels of the transitions that enter, by the state they leave. -/
  into : NatMap String
  deriving DecidableEq

/-- A state without transitions. -/
def Links.none : Links := ⟨.empty, .empty⟩

/-- A labelled automaton. -/
structure Automaton where
  /-- The transitions of every state; a removed state is a hole. -/
  rows : Array (Option Links)
  /-- The initial state. -/
  initial : Option State
  /-- The final state. -/
  final : Option State
  deriving DecidableEq

namespace Automaton

/-- The automaton without states. -/
def empty : Automaton := ⟨#[], none, none⟩

instance : Inhabited Automaton := ⟨empty⟩

/-! ### Looking up -/

/-- The transitions at a state. -/
def row? (a : Automaton) (q : State) : Option Links := a.rows[q]?.join

/-- Whether a state belongs to the automaton. -/
def contains (a : Automaton) (q : State) : Bool := (a.row? q).isSome

/-- The states, in ascending order. -/
def states (a : Automaton) : List State := (List.range a.rows.size).filter a.contains

/-- The number of states. -/
def size (a : Automaton) : Nat := a.states.length

/-- The label of the transition from `p` to `q`. -/
def label? (a : Automaton) (p q : State) : Option String :=
  (a.row? p).bind fun links => links.out.find? q

/-- The transitions that leave a state, with the states they enter. -/
def successors (a : Automaton) (q : State) : List (State × String) :=
  match a.row? q with
  | some links => links.out.entries
  | none => []

/-- The states that have a transition into a state. -/
def predecessors (a : Automaton) (q : State) : List State :=
  match a.row? q with
  | some links => links.into.keys
  | none => []

/-- Every transition, with the states that it leaves and enters. -/
def transitions (a : Automaton) : List (State × State × String) :=
  a.states.flatMap fun p => (a.successors p).map fun e => (p, e.1, e.2)

/-- The number of transitions. -/
def transitionCount (a : Automaton) : Nat := a.transitions.length

/-- Whether a state is the initial or the final one. -/
def isTerminal (a : Automaton) (q : State) : Bool := a.initial = some q || a.final = some q

/-- The states that are neither initial nor final. -/
def innerStates (a : Automaton) : List State := a.states.filter fun q => !a.isTerminal q

/-! ### Changing -/

/-- Change the transitions at one state. -/
def modifyRow (rows : Array (Option Links)) (q : State) (change : Links → Links) :
    Array (Option Links) :=
  rows.modify q (Option.map change)

/-- The number that the next state will have. -/
def nextState (a : Automaton) : State := a.rows.size

/-- Add a state without transitions. -/
def addState (a : Automaton) : Automaton := { a with rows := a.rows.push (some .none) }

/-- Put a transition between two states, in place of one that joins them. -/
def connect (a : Automaton) (p q : State) (label : String) : Automaton :=
  if a.contains p && a.contains q then
    { a with
      rows := modifyRow
        (modifyRow a.rows p fun links => { links with out := links.out.insert q label })
        q fun links => { links with into := links.into.insert p label } }
  else a

/-- Take a transition away. -/
def disconnect (a : Automaton) (p q : State) : Automaton :=
  { a with
    rows := modifyRow
      (modifyRow a.rows p fun links => { links with out := links.out.erase q })
      q fun links => { links with into := links.into.erase p } }

/-- Forget a state in the rows of its neighbours, and leave a hole in its
place. -/
def eraseRow (rows : Array (Option Links)) (q : State) (links : Links) :
    Array (Option Links) :=
  let rows := links.out.keys.foldl
    (fun rows t => modifyRow rows t fun other => { other with into := other.into.erase q }) rows
  let rows := links.into.keys.foldl
    (fun rows s => modifyRow rows s fun other => { other with out := other.out.erase q }) rows
  rows.setIfInBounds q none

/-- Take a state away with its transitions and its roles. -/
def removeState (a : Automaton) (q : State) : Automaton :=
  match a.row? q with
  | none => a
  | some links => {
      rows := eraseRow a.rows q links
      initial := if a.initial = some q then none else a.initial
      final := if a.final = some q then none else a.final }

/-- Name the initial state, or none. -/
def setInitial (a : Automaton) (q : Option State) : Automaton :=
  if q.all a.contains then { a with initial := q } else a

/-- Name the final state, or none. -/
def setFinal (a : Automaton) (q : Option State) : Automaton :=
  if q.all a.contains then { a with final := q } else a

end Automaton

end RegexAutomata
