/-
Where the root of a written expression is.

The root of a text is the operation that binds least tightly outside all
brackets: a union if there is one, else a concatenation, else a repetition.
Of several operations of that kind it is the rightmost, so that binary
operations chain to the left.

A position is outside brackets if no bracket that belongs to it is closed
behind it: the closing brackets behind it are as many as the opening ones.
That is to say that the brackets before it have the same surplus of opening
ones as the brackets of the whole text, which is zero if they are balanced.
-/
import RegexAutomata.SymbolTable

namespace RegexAutomata.Regex

/-- The opening brackets of a text less its closing ones, added to `depth`. -/
def surplusFrom (depth : Int) : List Char → Int
  | [] => depth
  | c :: cs =>
    if c = '(' then surplusFrom (depth + 1) cs
    else if c = ')' then surplusFrom (depth - 1) cs
    else surplusFrom depth cs

/-- The opening brackets of a text less its closing ones. -/
def surplus (cs : List Char) : Int := surplusFrom 0 cs

/-- The rightmost operation of each kind outside brackets. -/
structure Outside where
  /-- The rightmost repetition. -/
  star : Option Nat
  /-- The rightmost concatenation. -/
  concat : Option Nat
  /-- The rightmost union. -/
  union : Option Nat

namespace Outside

/-- No operation has been seen. -/
def none : Outside := ⟨.none, .none, .none⟩

/-- An operation takes the place of those of its kind on its left. -/
def note (s : Outside) (pos : Nat) : Operator → Outside
  | .star => { s with star := some pos }
  | .concat => { s with concat := some pos }
  | .union => { s with union := some pos }

/-- The loosest operation that was seen, and where. -/
def root? (s : Outside) : Option (Nat × Operator) :=
  match s.union, s.concat, s.star with
  | some pos, _, _ => some (pos, .union)
  | .none, some pos, _ => some (pos, .concat)
  | .none, .none, some pos => some (pos, .star)
  | .none, .none, .none => .none

end Outside

/-- Read the text from position `pos` on, before which the surplus is `depth`;
only where it is `level` do operations count. -/
def scanOutside (t : SymbolTable) (level : Int) :
    (pos : Nat) → (depth : Int) → Outside → List Char → Outside
  | _, _, seen, [] => seen
  | pos, depth, seen, c :: cs =>
    if c = '(' then scanOutside t level (pos + 1) (depth + 1) seen cs
    else if c = ')' then scanOutside t level (pos + 1) (depth - 1) seen cs
    else if depth = level then
      match t.operator? c with
      | some op => scanOutside t level (pos + 1) depth (seen.note pos op) cs
      | none => scanOutside t level (pos + 1) depth seen cs
    else scanOutside t level (pos + 1) depth seen cs

/-- The position and the operation of the root of a text. -/
def root? (t : SymbolTable) (cs : List Char) : Option (Nat × Operator) :=
  (scanOutside t (surplus cs) 0 0 .none cs).root?

/-- The position of the root of a text. -/
def rootIndex? (t : SymbolTable) (text : String) : Option Nat :=
  (root? t text.toList).map Prod.fst

end RegexAutomata.Regex
