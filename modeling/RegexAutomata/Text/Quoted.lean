/-
Quoted text: a character between apostrophes or a string between quotation
marks, with an escape for whatever would not read back from paper.

* A backslash and the mark in use are written after a backslash; the other
  mark stays bare.
* NUL, tab, line feed and carriage return have letters of their own.
* A combining or unprintable character is written by its code point, in
  lower-case hexadecimal digits without leading zeros, between braces.
* Every other character stands for itself.
-/
import RegexAutomata.Text.Combining
import RegexAutomata.Text.Unprintable

namespace RegexAutomata.Text

/-- The digits of a code point, as few as possible. -/
def hexDigits (n : Nat) : List Char := Nat.toDigits 16 n

/-- An escape that names a character by its code point. -/
def codePointEscape (c : Char) : List Char :=
  '\\' :: 'u' :: '{' :: hexDigits c.toNat ++ ['}']

/-- Whether a character may stand for itself: a printed form that does not
lean on the character before it. -/
def isPlain (c : Char) : Bool :=
  (' ' ≤ c && c ≤ '~') || (!isCombining c && !isUnprintable c)

/-- One character as it is written between two `mark`s. -/
def escapeChar (mark c : Char) : List Char :=
  if c = mark ∨ c = '\\' then ['\\', c]
  else if c = '\x00' then ['\\', '0']
  else if c = '\t' then ['\\', 't']
  else if c = '\n' then ['\\', 'n']
  else if c = '\r' then ['\\', 'r']
  else if isPlain c then [c]
  else codePointEscape c

/-- The characters of a quoted text. -/
def quoteWith (mark : Char) (cs : List Char) : List Char :=
  mark :: cs.flatMap (escapeChar mark) ++ [mark]

/-- A character between apostrophes. -/
def quoteChar (c : Char) : String := String.ofList (quoteWith '\'' [c])

/-- A string between quotation marks. -/
def quoteString (s : String) : String := String.ofList (quoteWith '"' s.toList)

end RegexAutomata.Text
