/-
Which sign each operation is written with.

A `SymbolTable` gives every operation one sign, gives no sign to two
operations, and uses only punctuation other than brackets, so that a sign is
never an operand or a bracket.  All of this is part of the type.

* `SymbolTable.symbol` and `SymbolTable.operator?` read the table in the two
  directions, and `SymbolTable.operator?_eq_some_iff` says that they agree;
* `SymbolTable.rebind` gives an operation another sign, or says why not.
-/
import RegexAutomata.Operator
import RegexAutomata.Text.Quoted

namespace RegexAutomata

/-- ASCII punctuation. -/
def isPunctuation (c : Char) : Bool :=
  let n := c.toNat
  (0x21 ≤ n && n ≤ 0x2F) || (0x3A ≤ n && n ≤ 0x40) || (0x5B ≤ n && n ≤ 0x60) ||
    (0x7B ≤ n && n ≤ 0x7E)

/-- Whether a character may be the sign of an operation: punctuation, but not
a round bracket. -/
def isSymbolChar (c : Char) : Bool := isPunctuation c && c != '(' && c != ')'

/-- Why an operation may not be given a sign. -/
inductive SymbolError where
  /-- The sign belongs to another operation. -/
  | duplicate (symbol : Char) (owner : Operator)
  /-- No operation may have this sign. -/
  | illegal (symbol : Char)
  deriving DecidableEq

/-- The wording of a refused sign. -/
def SymbolError.message : SymbolError → String
  | .duplicate c owner => "Symbol " ++ Text.quoteChar c ++ " is already bound to " ++ owner.name
  | .illegal c => "Symbol " ++ Text.quoteChar c ++ " cannot be used as an operator"

/-- One sign for every operation, no two alike, all of them punctuation. -/
structure SymbolTable where
  /-- The sign of repetition. -/
  star : Char
  /-- The sign of concatenation. -/
  concat : Char
  /-- The sign of union. -/
  union : Char
  /-- Every sign may be one. -/
  legal : isSymbolChar star = true ∧ isSymbolChar concat = true ∧ isSymbolChar union = true
  /-- No two signs are alike. -/
  distinct : star ≠ concat ∧ star ≠ union ∧ concat ≠ union
  deriving DecidableEq

namespace SymbolTable

/-- The table in which every operation has its own usual sign. -/
def standard : SymbolTable where
  star := Operator.star.defaultSymbol
  concat := Operator.concat.defaultSymbol
  union := Operator.union.defaultSymbol
  legal := ⟨rfl, rfl, rfl⟩
  distinct := by simp [Operator.defaultSymbol]

instance : Inhabited SymbolTable := ⟨standard⟩

/-- The sign of an operation. -/
def symbol (t : SymbolTable) : Operator → Char
  | .star => t.star
  | .concat => t.concat
  | .union => t.union

/-- The operation that a character is the sign of. -/
def operator? (t : SymbolTable) (c : Char) : Option Operator :=
  if c = t.star then some .star
  else if c = t.concat then some .concat
  else if c = t.union then some .union
  else none

/-- Whether a character is the sign of an operation. -/
def isOperator (t : SymbolTable) (c : Char) : Bool := (t.operator? c).isSome

/-- The two directions agree. -/
theorem operator?_eq_some_iff {t : SymbolTable} {c : Char} {op : Operator} :
    t.operator? c = some op ↔ t.symbol op = c := by
  obtain ⟨h₁, h₂, h₃⟩ := t.distinct
  constructor
  · intro h
    unfold operator? at h
    split at h
    · rename_i hc
      cases h
      exact hc.symm
    · split at h
      · rename_i hc
        cases h
        exact hc.symm
      · split at h
        · rename_i hc
          cases h
          exact hc.symm
        · cases h
  · rintro rfl
    cases op
    · exact if_pos rfl
    · exact (if_neg (Ne.symm h₁)).trans (if_pos rfl)
    · exact ((if_neg (Ne.symm h₂)).trans (if_neg (Ne.symm h₃))).trans (if_pos rfl)

theorem symbol_ne_of_operator?_eq_none {t : SymbolTable} {c : Char} (h : t.operator? c = none)
    (op : Operator) : t.symbol op ≠ c := fun hop => by
  rw [operator?_eq_some_iff.2 hop] at h
  cases h

/-- Every sign may be one. -/
theorem isSymbolChar_symbol (t : SymbolTable) (op : Operator) :
    isSymbolChar (t.symbol op) = true := by
  cases op
  · exact t.legal.1
  · exact t.legal.2.1
  · exact t.legal.2.2

/-! ### Giving a sign -/

/-- Give an operation a sign that no operation has. -/
def put (t : SymbolTable) (op : Operator) (c : Char) (legal : isSymbolChar c = true)
    (free : t.operator? c = none) : SymbolTable :=
  have hs := symbol_ne_of_operator?_eq_none free .star
  have hc := symbol_ne_of_operator?_eq_none free .concat
  have hu := symbol_ne_of_operator?_eq_none free .union
  match op with
  | .star => { t with
      star := c
      legal := ⟨legal, t.legal.2⟩
      distinct := ⟨hc.symm, hu.symm, t.distinct.2.2⟩ }
  | .concat => { t with
      concat := c
      legal := ⟨t.legal.1, legal, t.legal.2.2⟩
      distinct := ⟨hs, t.distinct.2.1, hu.symm⟩ }
  | .union => { t with
      union := c
      legal := ⟨t.legal.1, t.legal.2.1, legal⟩
      distinct := ⟨t.distinct.1, hs, hc⟩ }

/-- Give an operation a sign, and free its former one.  A sign that is no
punctuation is refused before one that is taken. -/
def rebind (t : SymbolTable) (op : Operator) (c : Char) : Except SymbolError SymbolTable :=
  if legal : isSymbolChar c = true then
    match free : t.operator? c with
    | some owner => if owner = op then .ok t else .error (.duplicate c owner)
    | none => .ok (t.put op c legal free)
  else .error (.illegal c)

/-- Give signs to several operations, one after another, up to the first
refusal. -/
def rebindAll (t : SymbolTable) : List (Operator × Char) → Except SymbolError SymbolTable
  | [] => .ok t
  | (op, c) :: rest => do (← t.rebind op c).rebindAll rest

end SymbolTable

end RegexAutomata
