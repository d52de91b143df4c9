/-
Two ways to write an expression down.

* `Regex.display` writes the fewest brackets from which the expression can be
  read again.  Every place demands some strength: an operand of `op` on the
  left demands that of `op`, one on the right demands more, since binary
  operations chain to the left.  An expression that binds less tightly than
  its place demands goes between brackets.
* `Regex.canonical` writes brackets around every operation.

Both are written in front of a given rest, so that writing takes time in
proportion to the length of the text.
-/
import RegexAutomata.Regex.Traversal
import RegexAutomata.SymbolTable

namespace RegexAutomata.Regex

/-- Write `body` in front of `rest`, between brackets if asked to. -/
def writeBracketed (bracket : Bool) (body : List Char → List Char) (rest : List Char) :
    List Char :=
  if bracket then '(' :: body (')' :: rest) else body rest

/-- Write an expression in front of `rest`, in a place that demands the
strength `place`. -/
def write (t : SymbolTable) (place : Nat) (e : Regex) (rest : List Char) : List Char :=
  writeBracketed (e.strength < place) (fun rest => match e with
    | .operand o => o.toChar :: rest
    | .star e => e.write t Operator.star.strength (t.symbol .star :: rest)
    | .concat l r =>
      l.write t Operator.concat.strength
        (t.symbol .concat :: r.write t (Operator.concat.strength + 1) rest)
    | .union l r =>
      l.write t Operator.union.strength
        (t.symbol .union :: r.write t (Operator.union.strength + 1) rest)) rest

/-- The characters of an expression with the fewest brackets. -/
def displayChars (t : SymbolTable) (e : Regex) : List Char := e.write t 0 []

/-- An expression with the fewest brackets. -/
def display (t : SymbolTable) (e : Regex) : String := String.ofList (e.displayChars t)

/-- Write an expression in front of `rest`, every operation between
brackets. -/
def writeCanonical (t : SymbolTable) : Regex → List Char → List Char
  | .operand o, rest => o.toChar :: rest
  | .star e, rest => '(' :: e.writeCanonical t (t.symbol .star :: ')' :: rest)
  | .concat l r, rest =>
    '(' :: l.writeCanonical t (t.symbol .concat :: r.writeCanonical t (')' :: rest))
  | .union l r, rest =>
    '(' :: l.writeCanonical t (t.symbol .union :: r.writeCanonical t (')' :: rest))

/-- An expression with brackets around every operation. -/
def canonical (t : SymbolTable) (e : Regex) : String := String.ofList (e.writeCanonical t [])

/-- The sign of the root: its operand, or the sign of its operation. -/
def sign (t : SymbolTable) : Regex → Char
  | .operand o => o.toChar
  | .star _ => t.symbol .star
  | .concat _ _ => t.symbol .concat
  | .union _ _ => t.symbol .union

/-- The signs of the nodes, each before those of its children. -/
def signs (t : SymbolTable) (e : Regex) : String := String.ofList (e.preOrder.map (sign t))

end RegexAutomata.Regex
