/-
The arguments of the two programs.

An argument that starts with a hyphen is an option; all others are operands,
and so is everything behind a lone double hyphen.  Options are written long,
as `--union=+` or `--union +`, or short, where several flags may share a hyphen
and a value may follow directly or behind an equals sign.  A value that
stands in an argument of its own may be a lone hyphen, but does not otherwise
start with one.

`Arguments.read` accepts a list of arguments only as a whole: every option is
known and is given once (`--verbose` as often as one likes), every value is
well formed, options that exclude each other do not meet, and there is exactly
one operand, the expression.
-/
import RegexAutomata.SymbolTable

namespace RegexAutomata.CommandLine

/-- The two programs. -/
inductive Program where
  /-- Eliminates all states and prints the steps and the result. -/
  | eliminate
  /-- Draws the expression or its automaton. -/
  | draw
  deriving DecidableEq

/-- Options without a value. -/
inductive Flag where
  /-- Log more. -/
  | verbose
  /-- Print the result alone. -/
  | quiet
  /-- Draw the expression, not its automaton. -/
  | tree
  deriving DecidableEq

/-- Options with a value. -/
inductive Setting where
  /-- The sign of an operation. -/
  | sign (op : Operator)
  /-- The number of states to eliminate before drawing. -/
  | rounds
  deriving DecidableEq

/-- An option of a program. -/
inductive Switch where
  /-- One without a value. -/
  | flag (f : Flag)
  /-- One with a value. -/
  | setting (s : Setting)

/-- The options by their long names. -/
def longSwitch? (program : Program) (name : String) : Option Switch :=
  match name, program with
  | "verbose", _ => some (.flag .verbose)
  | "star", _ => some (.setting (.sign .star))
  | "concat", _ => some (.setting (.sign .concat))
  | "union", _ => some (.setting (.sign .union))
  | "quiet", .eliminate => some (.flag .quiet)
  | "tree", .draw => some (.flag .tree)
  | "eliminate", .draw => some (.setting .rounds)
  | _, _ => none

/-- The options by their letters. -/
def shortSwitch? (program : Program) (letter : Char) : Option Switch :=
  match letter, program with
  | 'v', _ => some (.flag .verbose)
  | 'q', .eliminate => some (.flag .quiet)
  | 't', .draw => some (.flag .tree)
  | 'e', .draw => some (.setting .rounds)
  | _, _ => none

/-- What an argument, or a part of one, says. -/
inductive Word where
  /-- An option without a value is given. -/
  | flag (f : Flag)
  /-- An option with a value is given. -/
  | setting (s : Setting) (value : List Char)
  /-- No option. -/
  | operand (text : String)
  deriving DecidableEq

/-! ### From arguments to words -/

/-- The letters behind one hyphen: the options with what values they have,
and the option that takes the next argument for its value. -/
def readLetters (program : Program) : List Char → Option (List Word × Option Setting)
  | [] => some ([], none)
  | c :: cs =>
    match shortSwitch? program c with
    | none => none
    | some (.flag f) => (readLetters program cs).map fun r => (.flag f :: r.1, r.2)
    | some (.setting s) =>
      match cs with
      | [] => some ([], some s)
      | '=' :: value => some ([.setting s value], none)
      | value => some ([.setting s value], none)

/-- The text behind two hyphens: an option, and its value if one follows an
equals sign. -/
def readLong (program : Program) (cs : List Char) : Option (List Word × Option Setting) :=
  let name := cs.takeWhile (· ≠ '=')
  let value := cs.drop name.length
  match longSwitch? program (String.ofList name), value with
  | some (.flag f), [] => some ([.flag f], none)
  | some (.setting s), [] => some ([], some s)
  | some (.setting s), _ :: value => some ([.setting s value], none)
  | _, _ => none

/-- What one argument says, if it is not a lone double hyphen. -/
def readArgument (program : Program) (arg : String) : Option (List Word × Option Setting) :=
  match arg.toList with
  | '-' :: '-' :: cs => readLong program cs
  | '-' :: c :: cs => readLetters program (c :: cs)
  | _ => some ([.operand arg], none)

/-- Whether an argument can be the value of the option before it. -/
def isValue (arg : String) : Bool :=
  match arg.toList with
  | '-' :: _ :: _ => false
  | _ => true

/-- What a list of arguments says. -/
def readWords (program : Program) : List String → Option (List Word)
  | [] => some []
  | arg :: args =>
    if arg = "--" then some (args.map .operand)
    else
      match readArgument program arg with
      | none => none
      | some (words, none) => (readWords program args).map (words ++ ·)
      | some (words, some s) =>
        match args with
        | [] => none
        | value :: args =>
          if isValue value then
            (readWords program args).map fun rest => words ++ .setting s value.toList :: rest
          else none

/-! ### From words to settings -/

/-- What a program is asked to do. -/
structure Arguments where
  /-- The signs that were given, for each operation. -/
  sign : Operator → Option Char
  /-- Print the result alone. -/
  quiet : Bool
  /-- Draw the expression, not its automaton. -/
  tree : Bool
  /-- The number of states to eliminate before drawing. -/
  rounds : Nat
  /-- The expression. -/
  expression : String

/-- The one character of a text. -/
def readChar? : List Char → Option Char
  | [c] => some c
  | _ => none

/-- The numbers below this one fit 64 bits. -/
def wordBound : Nat := 18446744073709551616

/-- A number that fits 64 bits, written in decimal digits, with or without a
plus sign. -/
def readNumber? (cs : List Char) : Option Nat :=
  let digits := match cs with
    | '+' :: digits => digits
    | digits => digits
  let value := digits.foldl (fun n c => 10 * n + (c.toNat - '0'.toNat)) 0
  if !digits.isEmpty && digits.all Char.isDigit && value < wordBound then some value else none

/-- The values that are given for an option. -/
def valuesOf (words : List Word) (s : Setting) : List (List Char) :=
  words.filterMap fun
    | .setting s' value => if s' = s then some value else none
    | _ => none

/-- A value that may be given once: the value, or none if the option is
missing. -/
def atMostOne {α : Type} : List α → Option (Option α)
  | [] => some none
  | [a] => some (some a)
  | _ => none

/-- The sign for an operation: of the arguments if they give one, else of the
environment. -/
def readSign (words : List Word) (environment : Operator → Option String) (op : Operator) :
    Option (Option Char) := do
  match (← atMostOne (valuesOf words (.sign op))) <|> (environment op).map String.toList with
  | none => return none
  | some value => return some (← readChar? value)

/-- Read the arguments of a program; the environment may give signs. -/
def Arguments.read (program : Program) (args : List String)
    (environment : Operator → Option String) : Option Arguments := do
  let words ← readWords program args
  let star ← readSign words environment .star
  let concat ← readSign words environment .concat
  let union ← readSign words environment .union
  let rounds ← atMostOne (valuesOf words .rounds)
  let quiet ← atMostOne (words.filter (· = .flag .quiet))
  let tree ← atMostOne (words.filter (· = .flag .tree))
  guard (!(tree.isSome && rounds.isSome))
  let count ← match rounds with
    | none => some 0
    | some value => readNumber? value
  let operands := words.filterMap fun
    | .operand text => some text
    | _ => none
  match operands with
  | [expression] =>
    return {
      sign := fun
        | .star => star
        | .concat => concat
        | .union => union
      quiet := quiet.isSome
      tree := tree.isSome
      rounds := count
      expression }
  | _ => none

end RegexAutomata.CommandLine
