/-
The three operations of regular expressions.

An operation is known by its number of operands, by how tightly it binds
(`Operator.strength`), by the sign it is written with unless a table says
otherwise, and by the name that messages call it.
-/

namespace RegexAutomata

/-- The three regular operations. -/
inductive Operator where
  /-- Repetition, written after its one operand. -/
  | star
  /-- One expression followed by another. -/
  | concat
  /-- One expression or another. -/
  | union
  deriving DecidableEq, Repr

namespace Operator

/-- Every operation, the tightest first. -/
def all : List Operator := [.star, .concat, .union]

/-- The number of operands. -/
def arity : Operator → Nat
  | .star => 1
  | .concat => 2
  | .union => 2

/-- Whether the operation stands between two operands. -/
def isBinary (op : Operator) : Bool := op.arity == 2

/-- How tightly the operation binds: a higher number binds tighter. -/
def strength : Operator → Nat
  | .star => 2
  | .concat => 1
  | .union => 0

/-- The sign of the operation in the standard table. -/
def defaultSymbol : Operator → Char
  | .star => '*'
  | .concat => '|'
  | .union => '+'

/-- The name of the operation in messages. -/
def name : Operator → String
  | .star => "STAR"
  | .concat => "CONCATENATION"
  | .union => "UNION"

theorem mem_all (op : Operator) : op ∈ all := by
  cases op <;> simp [all]

/-- Repetition is the only operation that does not stand between two operands. -/
theorem isBinary_iff {op : Operator} : op.isBinary = true ↔ op ≠ .star := by
  cases op <;> simp [isBinary, arity]

theorem strength_lt_star {op : Operator} (h : op.isBinary = true) :
    op.strength < star.strength := by
  cases op with
  | star => cases h
  | concat => decide
  | union => decide

end Operator

end RegexAutomata
