/-
What the two programs print.

Both give the operations the signs that are asked for, read the expression and
build its automaton.  Then

* the first one eliminates every inner state, the lowest first, reports the
  steps unless it is to be quiet, and prints the final expression;
* the second one prints the expression as a graph, or eliminates some states,
  the lowest first, and prints the automaton as a graph.

Arguments that cannot be read end a program with the status 2, everything else
that fails with the status 1; what was printed before stays printed.
-/
import RegexAutomata.Automaton.Drawing
import RegexAutomata.CommandLine.Arguments
import RegexAutomata.Dot.Printer
import RegexAutomata.Elimination
import RegexAutomata.Regex.Drawing
import RegexAutomata.Thompson

namespace RegexAutomata.CommandLine

/-- What went wrong: what was being done, and why it failed, the nearest cause
first. -/
structure Failure where
  /-- What was being done. -/
  context : String
  /-- Why it failed. -/
  causes : List String
  deriving DecidableEq

/-- How a program ends. -/
inductive Status where
  /-- All is done. -/
  | success
  /-- Something went wrong. -/
  | failure (f : Failure)
  /-- The arguments cannot be read. -/
  | usage
  deriving DecidableEq

/-- What a program printed, and how it ended. -/
structure Outcome where
  /-- The text on standard output. -/
  output : String
  /-- The end. -/
  status : Status
  deriving DecidableEq

/-- The exit code of a program. -/
def Status.code : Status → Nat
  | .success => 0
  | .failure _ => 1
  | .usage => 2

/-- One cause in a report, with its number if there are several. -/
def causeLine (several : Bool) (cause : String × Nat) : String :=
  (if several then "    " ++ toString cause.2 ++ ": " else "    ") ++ cause.1

/-- The report of a failure. -/
def Failure.report (f : Failure) : String :=
  match f.causes with
  | [] => f.context
  | causes =>
    let lines := causes.zipIdx.map (causeLine (1 < causes.length))
    String.intercalate "\n" (f.context :: "" :: "Caused by:" :: lines)

/-- Give the operations the signs that are asked for. -/
def chooseSigns (sign : Operator → Option Char) : List Operator → SymbolTable →
    Except Failure SymbolTable
  | [], t => .ok t
  | op :: ops, t =>
    match sign op with
    | none => chooseSigns sign ops t
    | some c =>
      match t.rebind op c with
      | .ok t => chooseSigns sign ops t
      | .error e => .error ⟨"Error setting the " ++ op.name ++ " symbol", [e.message]⟩

/-- The table and the expression that the arguments speak of. -/
def prepare (args : Arguments) : Except Failure (SymbolTable × Regex) := do
  let t ← chooseSigns args.sign Operator.all .standard
  match Regex.parse t args.expression with
  | .ok e => return (t, e)
  | .error e => throw ⟨"Error parsing expression", [e.message]⟩

/-- A failed elimination with its causes. -/
def eliminationFailure (context : String) (e : EliminationError) : Failure :=
  match e with
  | .label _ cause => ⟨context, [e.message, cause.message]⟩
  | _ => ⟨context, [e.message]⟩

/-- How a run of eliminations ended. -/
def runStatus (run : Automaton.Run) : Status :=
  match run.failure with
  | none => .success
  | some (q, e) => .failure (eliminationFailure ("Error eliminating " ++ q.name) e)

/-- A line of output. -/
def line (text : String) : String := text ++ "\n"

/-- The report of one eliminated state. -/
def stepReport (s : Automaton.Step) : String :=
  line ("eliminate " ++ s.state.name) ++
    String.join (s.rewrites.map fun w => line ("  " ++ w.print))

/-- Eliminate every inner state, report the steps, and print the final
expression. -/
def eliminateAll (t : SymbolTable) (quiet : Bool) (e : Regex) : Outcome :=
  let a := Automaton.ofRegex e
  let run := Automaton.eliminateEach t a.innerStates a
  let report := if quiet then "" else String.join (run.steps.map stepReport)
  match runStatus run with
  | .success =>
    match run.rest.finalRegex t with
    | .ok text => ⟨report ++ line text, .success⟩
    | .error e => ⟨report, .failure (eliminationFailure "Error reading final expression" e)⟩
  | status => ⟨report, status⟩

/-- Eliminate the lowest inner states, and print what is left as a graph. -/
def drawAutomaton (t : SymbolTable) (rounds : Nat) (e : Regex) : Outcome :=
  let a := Automaton.ofRegex e
  let run := Automaton.eliminateEach t (a.innerStates.take rounds) a
  match runStatus run with
  | .success => ⟨line run.rest.graph.print, .success⟩
  | status => ⟨"", status⟩

/-- Run a program with arguments that could be read. -/
def runWith (program : Program) (args : Arguments) : Outcome :=
  match prepare args with
  | .error f => ⟨"", .failure f⟩
  | .ok (t, e) =>
    match program with
    | .eliminate => eliminateAll t args.quiet e
    | .draw =>
      if args.tree then ⟨line (e.graph t).print, .success⟩
      else drawAutomaton t args.rounds e

/-- Run a program. -/
def run (program : Program) (args : List String) (environment : Operator → Option String) :
    Outcome :=
  match Arguments.read program args environment with
  | none => ⟨"", .usage⟩
  | some args => runWith program args

end RegexAutomata.CommandLine
