/-
The laws by which expressions are shortened.

`repeated`, `followedBy` and `either` build a repetition, a concatenation and
a union, but use what is known of `ε`, of `∅` and of repetitions:

* `∅* = ε* = ε` and `e** = e*`;
* `∅ e = e ∅ = ∅` and `ε e = e ε = e`;
* `∅ + e = e + ∅ = e + e = e`, and `ε + e = e` where `e` is `x*`, or `x x*` or
  `x* x`, which then becomes `x*`.

`Regex.normalize` rebuilds an expression from its leaves with them.
-/
import RegexAutomata.Regex.Basic

namespace RegexAutomata.Regex

/-- Any number of repetitions. -/
def repeated : Regex → Regex
  | .operand .emptySet => emptyString
  | .operand .emptyString => emptyString
  | .star e => .star e
  | e => .star e

/-- The left one, then the right one. -/
def followedBy (l r : Regex) : Regex :=
  if l = emptySet ∨ r = emptySet then emptySet
  else if l = emptyString then r
  else if r = emptyString then l
  else .concat l r

/-- The repetition that an expression becomes when the empty string is added
to it: `x*` for each of `x*`, `x x*` and `x* x`. -/
def closure? : Regex → Option Regex
  | .star e => some (.star e)
  | .concat l r => if r = .star l then some r else if l = .star r then some l else none
  | _ => none

/-- The left one or the right one. -/
def either (l r : Regex) : Regex :=
  if l = emptySet then r
  else if r = emptySet ∨ l = r then l
  else
    match (if l = emptyString then closure? r else none) with
    | some e => e
    | none =>
      match (if r = emptyString then closure? l else none) with
      | some e => e
      | none => .union l r

/-- Rebuild an expression by the laws, from its leaves to its root. -/
def normalize : Regex → Regex
  | .operand o => .operand o
  | .star e => repeated e.normalize
  | .concat l r => followedBy l.normalize r.normalize
  | .union l r => either l.normalize r.normalize

end RegexAutomata.Regex
