/-
Taking needless brackets out of a written expression.

A pair of brackets is needless if the text without it still spells the same
expression.  `simplify` looks for the first needless pair, in the order in
which pairs are closed, takes it out and starts again, until every pair that
is left is needed.
-/
import RegexAutomata.Regex.Parser

namespace RegexAutomata.Regex

/-- Whether a list of characters spells the expression given. -/
def spells (t : SymbolTable) (e : Regex) (cs : List Char) : Bool :=
  match parseChars t cs with
  | .ok e' => e' == e
  | .error _ => false

/-- The first pair of brackets without which a text spells the expression. -/
def needlessPair? (t : SymbolTable) (e : Regex) (cs : List Char) : Option (Nat × Nat) :=
  (Text.bracketPairs cs).find? fun pair => spells t e (Text.erasePair cs pair)

theorem length_erase_needlessPair {t : SymbolTable} {e : Regex} {cs : List Char}
    {pair : Nat × Nat} (h : needlessPair? t e cs = some pair) :
    (Text.erasePair cs pair).length < cs.length :=
  Text.length_erasePair_lt (List.mem_of_find?_eq_some h)

/-- Take pairs of brackets out of a text as long as it spells the
expression. -/
def dropNeedlessPairs (t : SymbolTable) (e : Regex) (cs : List Char) : List Char :=
  match _h : needlessPair? t e cs with
  | some pair => dropNeedlessPairs t e (Text.erasePair cs pair)
  | none => cs
termination_by cs.length
decreasing_by exact length_erase_needlessPair _h

/-- A text without needless brackets, if it spells an expression at all. -/
def simplify (t : SymbolTable) (text : String) : Except ParseError String := do
  let e ← parse t text
  return String.ofList (dropNeedlessPairs t e text.toList)

end RegexAutomata.Regex
