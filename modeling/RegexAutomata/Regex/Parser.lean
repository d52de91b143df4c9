/-
Reading a written expression.

A text is first checked character by character (`validate`): it may hold
operands, the signs of the table and brackets, and its brackets have to be
balanced.  Then `parse` takes off outer brackets, splits the text at its root
and reads the operands in the same way, to a depth of at most `maxDepth`
operations.  A text of more than `maxLength` characters is not read at all.

Every fault is a `ParseError`; positions count characters from zero.
-/
import RegexAutomata.Regex.Basic
import RegexAutomata.Regex.Root
import RegexAutomata.Text.Brackets

namespace RegexAutomata

/-- The longest text that is read. -/
def maxLength : Nat := 16384

/-- The greatest number of operations above an operand that is read. -/
def maxDepth : Nat := 512

/-- Why a text is no expression. -/
inductive ParseError where
  /-- Neither operand nor sign nor bracket. -/
  | illegalAlphabet (c : Char) (pos : Nat)
  /-- A closing bracket without an opening one, or the end of the text before
  the closing bracket. -/
  | unbalancedBrackets (pos : Nat)
  /-- An operation lacks an operand. -/
  | emptyOperand (op : Operator)
  /-- No operation takes the operand that starts here. -/
  | unexpectedOperand (pos : Option Nat)
  /-- The character is no sign of the table. -/
  | unknownOperator (c : Char)
  /-- Nothing stands where an expression is due. -/
  | emptyExpression
  /-- More characters than `maxLength`. -/
  | tooLong (length : Nat)
  /-- More than `maxDepth` operations inside one another. -/
  | tooDeep
  deriving DecidableEq

namespace ParseError

/-- The wording of a fault. -/
def message : ParseError → String
  | .illegalAlphabet c pos =>
    "Illegal character " ++ Text.quoteChar c ++ " at position " ++ toString pos
  | .unbalancedBrackets pos => "Unbalanced brackets at position " ++ toString pos
  | .emptyOperand op => "Missing operand for " ++ op.name
  | .unexpectedOperand (some pos) => "Unexpected operand at position " ++ toString pos
  | .unexpectedOperand none => "Unexpected operand"
  | .unknownOperator c => Text.quoteChar c ++ " is not an operator symbol"
  | .emptyExpression => "Empty expression"
  | .tooLong length =>
    "Expression is " ++ toString length ++ " characters long, the limit is " ++
      toString maxLength
  | .tooDeep => "Expression nests operators more than " ++ toString maxDepth ++ " deep"

end ParseError

/-- The operation that a character is the sign of, or a fault. -/
def SymbolTable.operatorFor (t : SymbolTable) (c : Char) : Except ParseError Operator :=
  match t.operator? c with
  | some op => .ok op
  | none => .error (.unknownOperator c)

namespace Regex

/-- The expression of an operation with the operands given, if they are as
many as it takes. -/
def ofOperator : Operator → Regex → Option Regex → Except ParseError Regex
  | .star, l, none => .ok (.star l)
  | .star, _, some _ => .error (.unexpectedOperand none)
  | .concat, l, some r => .ok (.concat l r)
  | .concat, _, none => .error (.emptyOperand .concat)
  | .union, l, some r => .ok (.union l r)
  | .union, _, none => .error (.emptyOperand .union)

/-! ### Checking the characters -/

/-- Whether a character may stand in a text that is read with this table. -/
def isAllowed (t : SymbolTable) (c : Char) : Bool :=
  c == '(' || c == ')' || (Operand.ofChar? c).isSome || t.isOperator c

/-- Check the text from position `pos` on, where `depth` brackets are open. -/
def validateFrom (t : SymbolTable) : (pos depth : Nat) → List Char → Except ParseError Unit
  | pos, depth, [] => if depth = 0 then .ok () else .error (.unbalancedBrackets pos)
  | pos, depth, c :: cs =>
    if c = '(' then validateFrom t (pos + 1) (depth + 1) cs
    else if c = ')' then
      match depth with
      | 0 => .error (.unbalancedBrackets pos)
      | depth + 1 => validateFrom t (pos + 1) depth cs
    else if isAllowed t c then validateFrom t (pos + 1) depth cs
    else .error (.illegalAlphabet c pos)

/-- Check the characters of a text and the balance of its brackets; the
first offence from the left is reported. -/
def validate (t : SymbolTable) (text : String) : Except ParseError Unit :=
  validateFrom t 0 0 text.toList

/-! ### Reading -/

/-- The operand that a text consists of. -/
def loneOperand? : List Char → Option Operand
  | [c] => Operand.ofChar? c
  | _ => none

/-- Put an operation together from the texts of its operands, the left one at
position `start` and the right one at position `after`, with a reader for
either. -/
def parseOperands (read : Nat → List Char → Except ParseError Regex) (op : Operator)
    (start after : Nat) (left right : List Char) : Except ParseError Regex :=
  if left = [] then .error (.emptyOperand op)
  else do
    let l ← read start left
    if op.isBinary then
      if right = [] then .error (.emptyOperand op)
      else do
        let r ← read after right
        ofOperator op l (some r)
    else if right = [] then ofOperator op l none
    else .error (.unexpectedOperand (some after))

/-- Read a text whose first character is at position `start`, with at most
`allowance` levels of expressions inside one another. -/
def parseWithin (t : SymbolTable) :
    (allowance start : Nat) → List Char → Except ParseError Regex
  | 0, _, _ => .error .tooDeep
  | allowance + 1, start, text =>
    match Text.stripAll start text with
    | (_, []) => .error .emptyExpression
    | (start, body) =>
      match loneOperand? body with
      | some o => .ok (.operand o)
      | none =>
        match root? t body with
        | none => .error (.unexpectedOperand (some (start + 1)))
        | some (root, op) =>
          parseOperands (parseWithin t allowance) op start (start + root + 1)
            (body.take root) (body.drop (root + 1))

/-- Read the expression that a list of characters spells. -/
def parseChars (t : SymbolTable) (cs : List Char) : Except ParseError Regex :=
  if maxLength < cs.length then .error (.tooLong cs.length)
  else do
    validateFrom t 0 0 cs
    parseWithin t (maxDepth + 1) 0 cs

/-- Read the expression that a text spells. -/
def parse (t : SymbolTable) (text : String) : Except ParseError Regex :=
  parseChars t text.toList

end Regex

end RegexAutomata
