/-
The command line: the first argument names the program, `eliminate` or
`draw`, and the others are its own.  The environment variables `RECONV_STAR`,
`RECONV_CONCAT` and `RECONV_UNION` give signs that the arguments do not give.
-/
import RegexAutomata.CommandLine.Programs

namespace RegexAutomata.CommandLine

/-- The environment variable that gives the sign of an operation. -/
def signVariable : Operator → String
  | .star => "RECONV_STAR"
  | .concat => "RECONV_CONCAT"
  | .union => "RECONV_UNION"

/-- How the programs are called. -/
def usageText : String :=
  "usage: eliminate [-q] [-v] [--star C] [--concat C] [--union C] EXPRESSION\n" ++
  "       draw [-t | -e N] [-v] [--star C] [--concat C] [--union C] EXPRESSION"

/-- Run a program in the environment of the process. -/
def runInProcess (program : Program) (args : List String) : IO UInt32 := do
  let star ← IO.getEnv (signVariable .star)
  let concat ← IO.getEnv (signVariable .concat)
  let union ← IO.getEnv (signVariable .union)
  let outcome := run program args fun
    | .star => star
    | .concat => concat
    | .union => union
  IO.print outcome.output
  match outcome.status with
  | .success => pure ()
  | .failure f => IO.eprintln f.report
  | .usage => IO.eprintln usageText
  return outcome.status.code.toUInt32

end RegexAutomata.CommandLine

/-- The entry point. -/
def main (args : List String) : IO UInt32 :=
  match args with
  | "eliminate" :: rest => RegexAutomata.CommandLine.runInProcess .eliminate rest
  | "draw" :: rest => RegexAutomata.CommandLine.runInProcess .draw rest
  | _ => do
    IO.eprintln RegexAutomata.CommandLine.usageText
    return 2
