/-
The characters of a written expression.

Operands, the signs of a table and round brackets are three classes without a
common member, whatever the table.  An expression is `Regex.WellFormed` if each
of its operands is one that some character stands for, so that no operand is
written like a sign or a bracket, or like another operand
(`Operand.ofChar?_toChar`).
-/
import RegexAutomata.Regex.Basic
import RegexAutomata.SymbolTable

namespace RegexAutomata

namespace Operand

/-- Some character stands for the operand: a letter or digit stands for itself. -/
def Proper : Operand → Prop
  | .char c => c.isAlphanum
  | .emptyString => True
  | .emptySet => True

instance : DecidablePred Proper
  | .char c => inferInstanceAs (Decidable (c.isAlphanum = true))
  | .emptyString => inferInstanceAs (Decidable True)
  | .emptySet => inferInstanceAs (Decidable True)

theorem isAlphanum_iff (c : Char) :
    c.isAlphanum = true ↔ (65 ≤ c.toNat ∧ c.toNat ≤ 90) ∨ (97 ≤ c.toNat ∧ c.toNat ≤ 122) ∨
      (48 ≤ c.toNat ∧ c.toNat ≤ 57) := by
  show ((decide ('A'.val ≤ c.val ∧ c.val ≤ 'Z'.val) ||
    (decide ('a'.val ≤ c.val) && decide (c.val ≤ 'z'.val))) ||
    (decide ('0'.val ≤ c.val) && decide (c.val ≤ '9'.val))) = true ↔ _
  simp only [Bool.or_eq_true, Bool.and_eq_true, decide_eq_true_eq, UInt32.le_iff_toNat_le,
    or_assoc]
  rfl

/-- An operand that a character stands for is proper, and written as that character. -/
theorem ofChar?_eq_some_iff {c : Char} {o : Operand} :
    ofChar? c = some o ↔ o.Proper ∧ o.toChar = c := by
  constructor
  · intro h
    unfold ofChar? at h
    split at h
    · rename_i hc
      cases h
      exact ⟨trivial, hc.symm⟩
    · split at h
      · rename_i hc
        cases h
        exact ⟨trivial, hc.symm⟩
      · split at h
        · rename_i hc
          cases h
          exact ⟨hc, rfl⟩
        · simp at h
  · rintro ⟨ho, rfl⟩
    rcases o with c | _ | _
    · have hc : c.isAlphanum = true := ho
      -- neither of the two other operands is written as a letter or digit
      have hε : c ≠ 'ε' := by
        rintro rfl
        revert hc
        decide
      have h0 : c ≠ '∅' := by
        rintro rfl
        revert hc
        decide
      simp [ofChar?, toChar, hε, h0, hc]
    · rfl
    · rfl

theorem ofChar?_toChar {o : Operand} (h : o.Proper) : ofChar? o.toChar = some o :=
  ofChar?_eq_some_iff.2 ⟨h, rfl⟩

/-- A character that stands for an operand may not be a sign. -/
theorem isSymbolChar_eq_false {c : Char} {o : Operand} (h : ofChar? c = some o) :
    isSymbolChar c = false := by
  obtain ⟨ho, rfl⟩ := ofChar?_eq_some_iff.1 h
  rcases o with c | _ | _
  · have hc := (isAlphanum_iff c).1 ho
    have : isPunctuation c = false := by
      simp only [isPunctuation, Bool.or_eq_false_iff, Bool.and_eq_false_iff,
        decide_eq_false_iff_not]
      -- the ranges of punctuation have nothing in common with those of letters and digits
      omega
    simp [isSymbolChar, toChar, this]
  · decide
  · decide

theorem ne_open_of_ofChar? {c : Char} {o : Operand} (h : ofChar? c = some o) : c ≠ '(' := by
  rintro rfl
  rw [show ofChar? '(' = none by decide] at h
  simp at h

theorem ne_close_of_ofChar? {c : Char} {o : Operand} (h : ofChar? c = some o) : c ≠ ')' := by
  rintro rfl
  rw [show ofChar? ')' = none by decide] at h
  simp at h

end Operand

namespace SymbolTable

variable (t : SymbolTable)

theorem symbol_ne_open (op : Operator) : t.symbol op ≠ '(' := by
  intro h
  have := t.isSymbolChar_symbol op
  rw [h] at this
  exact absurd this (by decide)

theorem symbol_ne_close (op : Operator) : t.symbol op ≠ ')' := by
  intro h
  have := t.isSymbolChar_symbol op
  rw [h] at this
  exact absurd this (by decide)

@[simp] theorem operator?_symbol (op : Operator) : t.operator? (t.symbol op) = some op :=
  operator?_eq_some_iff.2 rfl

theorem ofChar?_symbol (op : Operator) : Operand.ofChar? (t.symbol op) = none := by
  rcases h : Operand.ofChar? (t.symbol op) with _ | o
  · rfl
  · have := Operand.isSymbolChar_eq_false h
    rw [t.isSymbolChar_symbol op] at this
    simp at this

theorem operator?_of_ofChar? {c : Char} {o : Operand} (h : Operand.ofChar? c = some o) :
    t.operator? c = none := by
  rcases hop : t.operator? c with _ | op
  · rfl
  · rw [← operator?_eq_some_iff.1 hop, ofChar?_symbol] at h
    simp at h

end SymbolTable

namespace Regex

/-- Some character stands for each operand of the expression. -/
def WellFormed : Regex → Prop
  | .operand o => o.Proper
  | .star e => e.WellFormed
  | .concat l r => l.WellFormed ∧ r.WellFormed
  | .union l r => l.WellFormed ∧ r.WellFormed

instance decidableWellFormed : DecidablePred WellFormed
  | .operand o => inferInstanceAs (Decidable o.Proper)
  | .star e => decidableWellFormed e
  | .concat l r =>
    have := decidableWellFormed l
    have := decidableWellFormed r
    inferInstanceAs (Decidable (_ ∧ _))
  | .union l r =>
    have := decidableWellFormed l
    have := decidableWellFormed r
    inferInstanceAs (Decidable (_ ∧ _))

end Regex

end RegexAutomata
