/-
Regular expressions as trees.

An `Operand` is a literal character, the empty string or the empty set; a
`Regex` is an operand or an operation on smaller expressions.  Trees are
values: whatever changes an expression makes another one.

* `Operand.ofChar?` reads the operand that a character stands for: `ε`, `∅`
  or an ASCII letter or digit, and `Operand.toChar` writes it;
* `Regex.depth` counts the operations above the deepest operand;
* `Regex.children` lists the expressions directly below.
-/
import RegexAutomata.Operator

namespace RegexAutomata

/-- What stands at a leaf of an expression. -/
inductive Operand where
  /-- The one-letter text of this character. -/
  | char (c : Char)
  /-- The text without letters. -/
  | emptyString
  /-- No text at all. -/
  | emptySet
  deriving DecidableEq, Repr

namespace Operand

/-- The operand that a character stands for, if it may stand for one. -/
def ofChar? (c : Char) : Option Operand :=
  if c = 'ε' then some .emptyString
  else if c = '∅' then some .emptySet
  else if c.isAlphanum then some (.char c)
  else none

/-- The character that an operand is written as. -/
def toChar : Operand → Char
  | .char c => c
  | .emptyString => 'ε'
  | .emptySet => '∅'

/-- The operand as a text. -/
def print (o : Operand) : String := o.toChar.toString

end Operand

/-- A regular expression. -/
inductive Regex where
  /-- A leaf. -/
  | operand (o : Operand)
  /-- Any number of repetitions. -/
  | star (e : Regex)
  /-- The left one, then the right one. -/
  | concat (l r : Regex)
  /-- The left one or the right one. -/
  | union (l r : Regex)
  deriving DecidableEq, Repr

namespace Regex

/-- The expression of the empty string. -/
abbrev emptyString : Regex := .operand .emptyString

/-- The expression of the empty set. -/
abbrev emptySet : Regex := .operand .emptySet

instance : Inhabited Regex := ⟨emptySet⟩

/-- The operation at the root. -/
def operator? : Regex → Option Operator
  | .operand _ => none
  | .star _ => some .star
  | .concat _ _ => some .concat
  | .union _ _ => some .union

/-- The operand of a leaf. -/
def operand? : Regex → Option Operand
  | .operand o => some o
  | _ => none

/-- The first expression below the root. -/
def left? : Regex → Option Regex
  | .operand _ => none
  | .star e => some e
  | .concat l _ => some l
  | .union l _ => some l

/-- The second expression below the root; repetition has none. -/
def right? : Regex → Option Regex
  | .operand _ => none
  | .star _ => none
  | .concat _ r => some r
  | .union _ r => some r

/-- The expressions directly below the root, from left to right. -/
def children : Regex → List Regex
  | .operand _ => []
  | .star e => [e]
  | .concat l r => [l, r]
  | .union l r => [l, r]

/-- The number of operations on the longest way from the root to a leaf. -/
def depth : Regex → Nat
  | .operand _ => 0
  | .star e => e.depth + 1
  | .concat l r => max l.depth r.depth + 1
  | .union l r => max l.depth r.depth + 1

/-- The number of nodes. -/
def size : Regex → Nat
  | .operand _ => 1
  | .star e => e.size + 1
  | .concat l r => l.size + r.size + 1
  | .union l r => l.size + r.size + 1

/-- How tightly the root binds: an operand tighter than any operation. -/
def strength : Regex → Nat
  | .operand _ => 3
  | .star _ => Operator.star.strength
  | .concat _ _ => Operator.concat.strength
  | .union _ _ => Operator.union.strength

/-- The number of nodes of several expressions together. -/
def totalSize : List Regex → Nat
  | [] => 0
  | e :: es => e.size + totalSize es

theorem totalSize_append (es ds : List Regex) :
    totalSize (es ++ ds) = totalSize es + totalSize ds := by
  induction es with
  | nil => simp [totalSize]
  | cons e es ih =>
    simp only [List.cons_append, totalSize, ih]
    omega

theorem size_eq_children (e : Regex) : e.size = totalSize e.children + 1 := by
  cases e <;> simp [size, children, totalSize]

theorem mem_children_iff {c e : Regex} :
    c ∈ e.children ↔ e.left? = some c ∨ e.right? = some c := by
  cases e <;> simp [children, left?, right?, eq_comm]

theorem depth_lt_of_mem_children {c e : Regex} (h : c ∈ e.children) : c.depth < e.depth := by
  cases e with
  | operand o => cases h
  | star e =>
    rw [List.mem_singleton.1 h]
    exact Nat.lt_succ_self _
  | concat l r | union l r =>
    have hc : c = l ∨ c = r := by simpa [children] using h
    rcases hc with rfl | rfl
    · exact Nat.lt_succ_of_le (Nat.le_max_left _ _)
    · exact Nat.lt_succ_of_le (Nat.le_max_right _ _)

end Regex

end RegexAutomata
