/-
The grammar of written expressions.

A table of signs gives the grammar

  `U → U union C | C`, `C → C concat S | S`, `S → S star | A`, `A → operand | ( U )`,

whose binary operations chain to the left.  `Regex.Derives t n cs e` says that
the nonterminal `n` derives the text `cs` with the tree `e`; brackets leave no
node in it.

* `Derives.balanced`, `Derives.validate` — a derived text has balanced brackets
  and only characters that may stand in it;
* `Derives.rooted` — without outer brackets the text splits at the root of its
  tree, and `Derives.unwrap` — outer brackets may be taken off.
-/
import RegexAutomata.Proofs.Brackets
import RegexAutomata.Proofs.Characters
import RegexAutomata.Regex.Parser

namespace RegexAutomata.Regex

open Text

/-- The nonterminals, from the one for every expression to the one for those
that need no brackets anywhere. -/
inductive Nonterminal where
  /-- Unions, and all that binds tighter. -/
  | union
  /-- Concatenations, and all that binds tighter. -/
  | concat
  /-- Repetitions, and all that binds tighter. -/
  | star
  /-- Operands and expressions in brackets. -/
  | atom
  deriving DecidableEq

/-- The texts that the grammar derives, with their trees. -/
inductive Derives (t : SymbolTable) : Nonterminal → List Char → Regex → Prop
  /-- `U → U union C` -/
  | union {left right : List Char} {l r : Regex} (hl : Derives t .union left l)
      (hr : Derives t .concat right r) :
      Derives t .union (left ++ t.symbol .union :: right) (.union l r)
  /-- `U → C` -/
  | ofConcat {cs : List Char} {e : Regex} (h : Derives t .concat cs e) : Derives t .union cs e
  /-- `C → C concat S` -/
  | concat {left right : List Char} {l r : Regex} (hl : Derives t .concat left l)
      (hr : Derives t .star right r) :
      Derives t .concat (left ++ t.symbol .concat :: right) (.concat l r)
  /-- `C → S` -/
  | ofStar {cs : List Char} {e : Regex} (h : Derives t .star cs e) : Derives t .concat cs e
  /-- `S → S star` -/
  | star {left : List Char} {e : Regex} (h : Derives t .star left e) :
      Derives t .star (left ++ [t.symbol .star]) (.star e)
  /-- `S → A` -/
  | ofAtom {cs : List Char} {e : Regex} (h : Derives t .atom cs e) : Derives t .star cs e
  /-- `A → operand` -/
  | operand {c : Char} {o : Operand} (h : Operand.ofChar? c = some o) :
      Derives t .atom [c] (.operand o)
  /-- `A → ( U )` -/
  | brackets {cs : List Char} {e : Regex} (h : Derives t .union cs e) :
      Derives t .atom ('(' :: (cs ++ [')'])) e

variable {t : SymbolTable} {n : Nonterminal} {cs : List Char} {e : Regex}

theorem balanced_symbol (t : SymbolTable) (op : Operator) : Balanced [t.symbol op] :=
  balanced_singleton (t.symbol_ne_open op) (t.symbol_ne_close op)

namespace Derives

theorem ne_nil (h : Derives t n cs e) : cs ≠ [] := by
  induction h with
  | union | concat | star => simp
  | ofConcat _ ih | ofStar _ ih | ofAtom _ ih => exact ih
  | operand | brackets => simp

theorem balanced (h : Derives t n cs e) : Balanced cs := by
  induction h with
  | union _ _ ihl ihr => exact ihl.append ((balanced_symbol t .union).append ihr)
  | concat _ _ ihl ihr => exact ihl.append ((balanced_symbol t .concat).append ihr)
  | star _ ih => exact ih.append (balanced_symbol t .star)
  | ofConcat _ ih | ofStar _ ih | ofAtom _ ih => exact ih
  | operand h =>
    exact balanced_singleton (Operand.ne_open_of_ofChar? h) (Operand.ne_close_of_ofChar? h)
  | brackets _ ih => exact ih.wrap

theorem wellFormed (h : Derives t n cs e) : e.WellFormed := by
  induction h with
  | union _ _ ihl ihr | concat _ _ ihl ihr => exact ⟨ihl, ihr⟩
  | star _ ih | ofConcat _ ih | ofStar _ ih | ofAtom _ ih | brackets _ ih => exact ih
  | operand h => exact (Operand.ofChar?_eq_some_iff.1 h).1

theorem toUnion (h : Derives t n cs e) : Derives t .union cs e := by
  cases n with
  | union => exact h
  | concat => exact h.ofConcat
  | star => exact h.ofStar.ofConcat
  | atom => exact h.ofAtom.ofStar.ofConcat

end Derives

/-! ### Checking the characters -/

/-- Only operands, brackets and signs stand in a text. -/
def Allowed (t : SymbolTable) (cs : List Char) : Prop := ∀ c ∈ cs, isAllowed t c = true

theorem validateFrom_allowed {c : Char} (ho : c ≠ '(') (hc : c ≠ ')')
    (h : isAllowed t c = true) (pos depth : Nat) (rest : List Char) :
    validateFrom t pos depth (c :: rest) = validateFrom t (pos + 1) depth rest := by
  rw [validateFrom.eq_def]
  simp only [if_neg ho, if_neg hc, if_pos h]

theorem validateFrom_open (pos depth : Nat) (rest : List Char) :
    validateFrom t pos depth ('(' :: rest) = validateFrom t (pos + 1) (depth + 1) rest := by
  simp [validateFrom]

theorem validateFrom_close (pos depth : Nat) (rest : List Char) :
    validateFrom t pos (depth + 1) (')' :: rest) = validateFrom t (pos + 1) depth rest := by
  simp [validateFrom]

/-- Checking passes over characters that may stand in a text, as long as no closing bracket
lacks its partner. -/
theorem validateFrom_append {d d' : Nat} (h : depthAfter d cs = some d') (ha : Allowed t cs)
    (pos : Nat) (rest : List Char) :
    validateFrom t pos d (cs ++ rest) = validateFrom t (pos + cs.length) d' rest := by
  fun_induction depthAfter d cs generalizing pos with
  | case1 d =>
    cases h
    rfl
  | case2 d cs ih =>
    rw [List.cons_append, validateFrom_open, ih h (List.forall_mem_cons.1 ha).2, List.length_cons]
    congr 1
    omega
  | case3 cs ho => cases h
  | case4 cs d ho ih =>
    rw [List.cons_append, validateFrom_close, ih h (List.forall_mem_cons.1 ha).2,
      List.length_cons]
    congr 1
    omega
  | case5 d c cs ho hc ih =>
    obtain ⟨hallowed, ha⟩ := List.forall_mem_cons.1 ha
    rw [List.cons_append, validateFrom_allowed ho hc hallowed, ih h ha, List.length_cons]
    congr 1
    omega

theorem isAllowed_symbol (t : SymbolTable) (op : Operator) : isAllowed t (t.symbol op) = true := by
  simp [isAllowed, SymbolTable.isOperator]

theorem Derives.allowed (h : Derives t n cs e) : Allowed t cs := by
  induction h with
  | union _ _ ihl ihr | concat _ _ ihl ihr =>
    exact List.forall_mem_append.2 ⟨ihl, List.forall_mem_cons.2 ⟨isAllowed_symbol t _, ihr⟩⟩
  | star _ ih =>
    exact List.forall_mem_append.2 ⟨ih, List.forall_mem_singleton.2 (isAllowed_symbol t _)⟩
  | ofConcat _ ih | ofStar _ ih | ofAtom _ ih => exact ih
  | operand h => exact List.forall_mem_singleton.2 (by simp [isAllowed, h])
  | brackets _ ih =>
    exact List.forall_mem_cons.2
      ⟨rfl, List.forall_mem_append.2 ⟨ih, List.forall_mem_singleton.2 rfl⟩⟩

theorem Derives.validate (h : Derives t n cs e) : validateFrom t 0 0 cs = .ok () := by
  have := validateFrom_append h.balanced h.allowed 0 []
  rw [List.append_nil] at this
  rw [this]
  rfl

/-- Checking lets only balanced texts pass, of characters that may stand in them. -/
theorem of_validateFrom {pos depth : Nat} (h : validateFrom t pos depth cs = .ok ()) :
    depthAfter depth cs = some 0 ∧ Allowed t cs := by
  fun_induction validateFrom t pos depth cs with
  | case1 pos => exact ⟨rfl, fun c hc => absurd hc List.not_mem_nil⟩
  | case2 pos depth hd => simp at h
  | case3 pos depth cs ih =>
    obtain ⟨hdepth, hcs⟩ := ih h
    exact ⟨by rwa [depthAfter_open], List.forall_mem_cons.2 ⟨rfl, hcs⟩⟩
  | case4 pos cs ho => simp at h
  | case5 pos cs depth ho ih =>
    obtain ⟨hdepth, hcs⟩ := ih h
    exact ⟨by rwa [depthAfter_close], List.forall_mem_cons.2 ⟨rfl, hcs⟩⟩
  | case6 pos depth c cs ho hc hallowed ih =>
    obtain ⟨hdepth, hcs⟩ := ih h
    exact ⟨by rwa [depthAfter_plain ho hc], List.forall_mem_cons.2 ⟨hallowed, hcs⟩⟩
  | case7 pos depth c cs ho hc hallowed => simp at h

/-! ### The root of a derived text -/

/-- The ways to put an expression together at its root, without brackets
around it. -/
inductive Rooted (t : SymbolTable) : List Char → Regex → Prop
  | operand {c : Char} {o : Operand} (h : Operand.ofChar? c = some o) :
      Rooted t [c] (.operand o)
  | star {left : List Char} {e : Regex} (h : Derives t .star left e) :
      Rooted t (left ++ [t.symbol .star]) (.star e)
  | concat {left right : List Char} {l r : Regex} (hl : Derives t .concat left l)
      (hr : Derives t .star right r) :
      Rooted t (left ++ t.symbol .concat :: right) (.concat l r)
  | union {left right : List Char} {l r : Regex} (hl : Derives t .union left l)
      (hr : Derives t .concat right r) :
      Rooted t (left ++ t.symbol .union :: right) (.union l r)

theorem Derives.rooted_or_brackets (h : Derives t n cs e) :
    Rooted t cs e ∨ ∃ inner, cs = '(' :: (inner ++ [')']) ∧ Derives t .union inner e := by
  induction h with
  | union hl hr => exact Or.inl (.union hl hr)
  | concat hl hr => exact Or.inl (.concat hl hr)
  | star h => exact Or.inl (.star h)
  | ofConcat _ ih | ofStar _ ih | ofAtom _ ih => exact ih
  | operand h => exact Or.inl (.operand h)
  | brackets h => exact Or.inr ⟨_, rfl, h⟩

theorem Derives.rooted (h : Derives t n cs e) (hcs : unwrap? cs = none) : Rooted t cs e := by
  rcases h.rooted_or_brackets with hr | ⟨inner, rfl, hi⟩
  · exact hr
  · -- brackets of the grammar would have been taken off
    rw [unwrap?_wrap hi.balanced] at hcs
    simp at hcs

theorem Rooted.unwrap?_eq_none (h : Rooted t cs e) : unwrap? cs = none := by
  cases h with
  | operand h => simp [unwrap?, closesAtEnd]
  | star h => exact unwrap?_append h.balanced h.ne_nil (by simp)
  | concat hl _ => exact unwrap?_append hl.balanced hl.ne_nil (by simp)
  | union hl _ => exact unwrap?_append hl.balanced hl.ne_nil (by simp)

/-- Outer brackets that belong together are those of the grammar. -/
theorem Derives.unwrap {inner : List Char} (h : Derives t n cs e)
    (hcs : unwrap? cs = some inner) : Derives t .union inner e := by
  rcases h.rooted_or_brackets with hr | ⟨inner', rfl, hi⟩
  · rw [hr.unwrap?_eq_none] at hcs
    simp at hcs
  · rw [unwrap?_wrap hi.balanced, Option.some_inj] at hcs
    exact hcs ▸ hi

theorem derives_stripAll_iff (start : Nat) (cs : List Char) :
    Derives t .union (stripAll start cs).2 e ↔ Derives t .union cs e := by
  fun_induction stripAll start cs with
  | case1 start cs inner h ih =>
    rw [ih]
    constructor
    · intro hi
      rw [unwrap?_eq_some h]
      exact hi.brackets.toUnion
    · exact fun hc => hc.unwrap h
  | case2 start cs h => exact Iff.rfl

end RegexAutomata.Regex
