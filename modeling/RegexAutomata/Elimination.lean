/-
From an automaton back to an expression, state by state.

To eliminate a state `q` is to write every way that leads through it into the
transition around it: for a predecessor `p` and a successor `r` of `q` the new
label says `(p to r) + (p to q) (q to q)* (q to r)`.  When only the initial and
the final state are left, their labels are put together into one expression.

Labels are read by the parser, shortened by the laws of `Regex.normalize`, and
written down without needless brackets.

* `Automaton.eliminateState` eliminates one state;
* `Automaton.eliminateEach` eliminates the states of a list, and keeps what it
  did;
* `Automaton.finalRegex` reads the expression off two states;
* `Automaton.eliminate` goes all the way, the lowest state first.
-/
import RegexAutomata.Automaton.Validity
import RegexAutomata.Regex.Normal
import RegexAutomata.Regex.Parser
import RegexAutomata.Regex.Printer

namespace RegexAutomata

/-- Why a state cannot be eliminated or an expression not be read off. -/
inductive EliminationError where
  /-- A role is missing, both roles are with one state, or a state cannot be
  reached. -/
  | invalidAutomaton
  /-- The state is not there. -/
  | unknownState (q : State)
  /-- The state is the initial or the final one. -/
  | terminalState (q : State)
  /-- There are not two states. -/
  | notReduced (count : Nat)
  /-- A label is no expression, or a new one would not be. -/
  | label (text : String) (cause : ParseError)
  deriving DecidableEq

/-- The wording of a failed elimination. -/
def EliminationError.message : EliminationError → String
  | .invalidAutomaton =>
    "Automaton needs distinct initial and final states with every state reachable from the " ++
      "initial one"
  | .unknownState q => "No such state " ++ q.name
  | .terminalState q => "Cannot eliminate " ++ q.name ++ ", it is the initial or final state"
  | .notReduced count =>
    "Automaton is not fully reduced, " ++ toString count ++ " states remain"
  | .label text _ => "Invalid transition label " ++ Text.quoteString text

/-- A transition that was written while a state was eliminated. -/
structure Rewrite where
  /-- The state that it leaves. -/
  source : State
  /-- The state that it enters. -/
  target : State
  /-- Its new label. -/
  label : String
  deriving DecidableEq

/-- A written transition in a report. -/
def Rewrite.print (w : Rewrite) : String :=
  w.source.name ++ " -> " ++ w.target.name ++ ": " ++ w.label

namespace Automaton

/-! ### Labels -/

/-- The expression that a label spells, shortened. -/
def readLabel (t : SymbolTable) (text : String) : Except EliminationError Regex :=
  match Regex.parse t text with
  | .ok e => .ok e.normalize
  | .error cause => .error (.label text cause)

/-- The expression on the transition from `p` to `q`; where there is none,
the empty set. -/
def labelRegex (a : Automaton) (t : SymbolTable) (p q : State) :
    Except EliminationError Regex :=
  match a.label? p q with
  | some text => readLabel t text
  | none => .ok .emptySet

/-- The label for an expression, which has to be one that can be read.  The
printer writes no needless bracket, so there is none to take out. -/
def writeLabel (t : SymbolTable) (e : Regex) : Except EliminationError String :=
  let text := e.display t
  match Regex.parse t text with
  | .ok _ => .ok text
  | .error cause => .error (.label text cause)

/-! ### One state -/

/-- The initial and the final state, if they are given and differ. -/
def terminals (a : Automaton) : Except EliminationError (State × State) :=
  match a.initial, a.final with
  | some i, some f => if i = f then .error .invalidAutomaton else .ok (i, f)
  | _, _ => .error .invalidAutomaton

/-- The expression of all ways from one state to another, directly or through
a third one. -/
def around (direct into loop out : Regex) : Regex :=
  .either direct (.followedBy (.followedBy into loop.repeated) out)

/-- The transitions around `q` that start in `p`. -/
def rewritesFrom (a : Automaton) (t : SymbolTable) (q : State) (loop : Regex)
    (targets : List State) (p : State) : Except EliminationError (List Rewrite) := do
  let into ← a.labelRegex t p q
  targets.mapM fun r => do
    let direct ← a.labelRegex t p r
    let out ← a.labelRegex t q r
    let label ← writeLabel t (around direct into loop out)
    return ⟨p, r, label⟩

/-- The transitions around a state, from each of its predecessors to each of
its successors. -/
def rewritesAround (a : Automaton) (t : SymbolTable) (q : State) :
    Except EliminationError (List Rewrite) := do
  let sources := (a.predecessors q).filter fun p => p ≠ q
  let targets := ((a.successors q).map Prod.fst).filter fun r => r ≠ q
  let loop ← a.labelRegex t q q
  let rewrites ← sources.mapM (a.rewritesFrom t q loop targets)
  return rewrites.flatten

/-- Write transitions into an automaton. -/
def write (a : Automaton) (rewrites : List Rewrite) : Automaton :=
  rewrites.foldl (fun b w => b.connect w.source w.target w.label) a

/-- Whether a state can be eliminated at all. -/
def checkInner (a : Automaton) (q : State) : Except EliminationError Unit := do
  let _ ← a.terminals
  if !a.isValid then .error .invalidAutomaton
  else if !a.contains q then .error (.unknownState q)
  else if a.isTerminal q then .error (.terminalState q)
  else .ok ()

/-- Eliminate a state; the transitions that were written come first. -/
def eliminateState (a : Automaton) (t : SymbolTable) (q : State) :
    Except EliminationError (List Rewrite × Automaton) := do
  a.checkInner q
  let rewrites ← a.rewritesAround t q
  return (rewrites, (a.write rewrites).removeState q)

/-! ### All states -/

/-- A state that was eliminated, and the transitions that were written. -/
structure Step where
  /-- The state. -/
  state : State
  /-- The transitions. -/
  rewrites : List Rewrite
  deriving DecidableEq

/-- What came of eliminating one state after another. -/
structure Run where
  /-- The states that were eliminated. -/
  steps : List Step
  /-- What is left of the automaton. -/
  rest : Automaton
  /-- The state that could not be eliminated, and why. -/
  failure : Option (State × EliminationError)

/-- Eliminate the states of a list in turn, up to the first failure. -/
def eliminateEach (t : SymbolTable) : List State → Automaton → Run
  | [], a => ⟨[], a, none⟩
  | q :: qs, a =>
    match a.eliminateState t q with
    | .error e => ⟨[], a, some (q, e)⟩
    | .ok (rewrites, b) =>
      let run := eliminateEach t qs b
      { run with steps := ⟨q, rewrites⟩ :: run.steps }

/-- Whether two states are left. -/
def isReduced (a : Automaton) : Bool := a.size = 2

/-- The expression of two states: any number of loops at the first, the way to
the second, and there any number of loops and of ways back and forth again. -/
def throughTwo (first forth back second : Regex) : Regex :=
  let head := first.repeated
  let again := Regex.followedBy (.followedBy back head) forth
  .followedBy (.followedBy head forth) (Regex.either second again).repeated

/-- Read the expression off an automaton of two states. -/
def finalRegex (a : Automaton) (t : SymbolTable) : Except EliminationError String := do
  let (i, f) ← a.terminals
  if !a.isReduced then .error (.notReduced a.size)
  else do
    let first ← a.labelRegex t i i
    let forth ← a.labelRegex t i f
    let back ← a.labelRegex t f i
    let second ← a.labelRegex t f f
    writeLabel t (throughTwo first forth back second)

/-- Eliminate the lowest inner state, `rounds` times or until there is none,
and read the expression off. -/
def eliminateWithin (t : SymbolTable) : (rounds : Nat) → Automaton →
    Except EliminationError String
  | 0, a => a.finalRegex t
  | rounds + 1, a =>
    match a.innerStates.head? with
    | none => a.finalRegex t
    | some q => do
      let (_, b) ← a.eliminateState t q
      eliminateWithin t rounds b

/-- The expression of an automaton.  As every round takes a state away, there
are no more rounds than states. -/
def eliminate (a : Automaton) (t : SymbolTable) : Except EliminationError String :=
  eliminateWithin t a.size a

end Automaton

end RegexAutomata
