/-
Writing an expression with the fewest brackets.

Whatever place an expression is written in, the nonterminal of this place
derives the text (`derives_placed`), so that what is written can be read again
(`parse_display`).  No brackets are needless in it, and of all texts that
derive with the tree it is the only one of which this is true: any other one
has a pair of brackets that may be taken out on its own
(`Derives.eq_placed_or_redundant`), and is longer for it (`Derives.placed_le`).

With brackets around every operation an expression can be read again as well
(`parse_of_written`).
-/
import RegexAutomata.Proofs.Parsing
import RegexAutomata.Regex.Printer

namespace RegexAutomata.Regex

open Text

variable {t : SymbolTable} {n m : Nonterminal} {cs : List Char} {e l r : Regex}

/-! ### The characters in a place -/

/-- The characters of an expression in a place that demands some strength. -/
def placed (t : SymbolTable) (place : Nat) (e : Regex) : List Char := e.write t place []

theorem writeBracketed_eq {bracket : Bool} {body : List Char → List Char} (text : List Char)
    (h : ∀ rest, body rest = text ++ rest) (rest : List Char) :
    writeBracketed bracket body rest = writeBracketed bracket body [] ++ rest := by
  cases bracket with
  | false =>
    show body rest = body [] ++ rest
    rw [h, h, List.append_nil]
  | true =>
    show '(' :: body (')' :: rest) = '(' :: body [')'] ++ rest
    rw [h, h, List.cons_append, List.append_assoc, List.singleton_append]

theorem write_eq (t : SymbolTable) (place : Nat) (e : Regex) (rest : List Char) :
    e.write t place rest = e.placed t place ++ rest := by
  induction e generalizing place rest with
  | operand o =>
    rw [placed, write, write]
    exact writeBracketed_eq [o.toChar] (fun _ => rfl) rest
  | star e ih =>
    rw [placed, write, write]
    refine writeBracketed_eq (e.placed t Operator.star.strength ++ [t.symbol .star])
      (fun rest => ?_) rest
    simp only [ih, List.append_assoc, List.singleton_append]
  | concat l r ihl ihr =>
    rw [placed, write, write]
    refine writeBracketed_eq (l.placed t Operator.concat.strength ++
      t.symbol .concat :: r.placed t (Operator.concat.strength + 1)) (fun rest => ?_) rest
    simp only [ihl, ihr, List.append_assoc, List.cons_append]
  | union l r ihl ihr =>
    rw [placed, write, write]
    refine writeBracketed_eq (l.placed t Operator.union.strength ++
      t.symbol .union :: r.placed t (Operator.union.strength + 1)) (fun rest => ?_) rest
    simp only [ihl, ihr, List.append_assoc, List.cons_append]

theorem placed_operand (t : SymbolTable) (o : Operand) :
    (operand o).placed t 0 = [o.toChar] := rfl

theorem display_operand (t : SymbolTable) (o : Operand) : (operand o).display t = o.print := by
  rw [display, Operand.print, ← String.toList_inj, String.toList_ofList]
  exact (String.toList_singleton o.toChar).symm

theorem placed_star (t : SymbolTable) (e : Regex) :
    (star e).placed t 0 = e.placed t Operator.star.strength ++ [t.symbol .star] := by
  show e.write t Operator.star.strength [t.symbol .star] = _
  rw [write_eq]

theorem placed_concat (t : SymbolTable) (l r : Regex) :
    (concat l r).placed t 0 = l.placed t Operator.concat.strength ++
      t.symbol .concat :: r.placed t (Operator.concat.strength + 1) := by
  show l.write t _ (t.symbol .concat :: r.write t _ []) = _
  rw [write_eq]
  rfl

theorem placed_union (t : SymbolTable) (l r : Regex) :
    (union l r).placed t 0 = l.placed t Operator.union.strength ++
      t.symbol .union :: r.placed t (Operator.union.strength + 1) := by
  show l.write t _ (t.symbol .union :: r.write t _ []) = _
  rw [write_eq]
  rfl

/-- Where the place asks for no more than the expression has, no brackets are
written. -/
theorem placed_of_le {place : Nat} (h : place ≤ e.strength) : e.placed t place = e.placed t 0 := by
  have hp : decide (e.strength < place) = false := decide_eq_false (by omega)
  have h0 : decide (e.strength < 0) = false := decide_eq_false (Nat.not_lt_zero _)
  cases e with
  | operand | star | concat | union => rw [placed, placed, write, write, hp, h0]

/-- Where it asks for more, brackets are written around the expression. -/
theorem placed_of_lt {place : Nat} (h : e.strength < place) :
    e.placed t place = '(' :: (e.placed t 0 ++ [')']) := by
  have hp : decide (e.strength < place) = true := decide_eq_true h
  have h0 : decide (e.strength < 0) = false := decide_eq_false (Nat.not_lt_zero _)
  rw [← write_eq]
  cases e with
  | operand | star | concat | union => rw [placed, write, write, hp, h0]; rfl

/-! ### How long it is -/

/-- Brackets are two characters. -/
theorem length_placed (e : Regex) (t : SymbolTable) (place : Nat) :
    (e.placed t place).length =
      (e.placed t 0).length + if e.strength < place then 2 else 0 := by
  by_cases h : e.strength < place
  · rw [placed_of_lt h, if_pos h, List.length_cons, List.length_append, List.length_singleton]
  · rw [placed_of_le (Nat.not_lt.1 h), if_neg h, Nat.add_zero]

theorem length_placed_le (e : Regex) (t : SymbolTable) (place : Nat) :
    (e.placed t 0).length ≤ (e.placed t place).length := by
  rw [length_placed e t place]
  omega

section Length

variable (t : SymbolTable) (e l r : Regex)

theorem length_placed_operand (o : Operand) : ((operand o).placed t 0).length = 1 := rfl

theorem length_placed_star :
    ((star e).placed t 0).length = (e.placed t Operator.star.strength).length + 1 := by
  rw [placed_star, List.length_append, List.length_singleton]

theorem length_placed_concat :
    ((concat l r).placed t 0).length = (l.placed t Operator.concat.strength).length + 1 +
      (r.placed t (Operator.concat.strength + 1)).length := by
  rw [placed_concat, List.length_append, List.length_cons]
  omega

theorem length_placed_union :
    ((union l r).placed t 0).length = (l.placed t Operator.union.strength).length + 1 +
      (r.placed t (Operator.union.strength + 1)).length := by
  rw [placed_union, List.length_append, List.length_cons]
  omega

end Length

/-! ### What is written derives -/

theorem Derives.weaken (h : Derives t m cs e) (hle : n.strength ≤ m.strength) :
    Derives t n cs e := by
  cases n with
  | union => exact h.toUnion
  | concat =>
    cases m with
    | union => exact absurd hle (by decide)
    | concat => exact h
    | star => exact h.ofStar
    | atom => exact h.ofAtom.ofStar
  | star =>
    cases m with
    | union | concat => exact absurd hle (by decide)
    | star => exact h
    | atom => exact h.ofAtom
  | atom =>
    cases m with
    | union | concat | star => exact absurd hle (by decide)
    | atom => exact h

/-- A tree that derives from a nonterminal of its own strength derives from
every one, with brackets where they are written. -/
theorem Derives.placed (h : Derives t m (e.placed t 0) e) (hm : m.strength = e.strength)
    (n : Nonterminal) : Derives t n (e.placed t n.strength) e := by
  by_cases hn : n.strength ≤ e.strength
  · rw [placed_of_le hn]
    exact h.weaken (hm ▸ hn)
  · rw [placed_of_lt (by omega)]
    refine h.toUnion.brackets.weaken ?_
    cases n <;> decide

/-- What is written in the place of a nonterminal derives from it. -/
theorem derives_placed (he : e.WellFormed) (n : Nonterminal) :
    Derives t n (e.placed t n.strength) e := by
  induction e generalizing n with
  | operand o =>
    refine Derives.placed (m := .atom) ?_ rfl n
    rw [placed_operand]
    exact .operand (Operand.ofChar?_toChar he)
  | star e ih =>
    refine Derives.placed (m := .star) ?_ rfl n
    rw [placed_star]
    exact (ih he .star).star
  | concat l r ihl ihr =>
    refine Derives.placed (m := .concat) ?_ rfl n
    rw [placed_concat]
    exact (ihl he.1 .concat).concat (ihr he.2 .star)
  | union l r ihl ihr =>
    refine Derives.placed (m := .union) ?_ rfl n
    rw [placed_union]
    exact (ihl he.1 .union).union (ihr he.2 .concat)

theorem derives_display (he : e.WellFormed) (t : SymbolTable) :
    Derives t .union (e.display t).toList e := by
  rw [display, String.toList_ofList]
  exact derives_placed he .union

/-- What is written is read again within the limits. -/
theorem parse_display (he : e.WellFormed) (t : SymbolTable)
    (hlen : (e.display t).length ≤ maxLength) (hdepth : e.depth ≤ maxDepth) :
    parse t (e.display t) = .ok e :=
  parse_eq_ok_iff.2 ⟨hlen, derives_display he t, hdepth⟩

/-! ### Brackets around every operation -/

/-- What is written with all brackets derives where only an operand or brackets
may stand. -/
theorem exists_derives_writeCanonical (he : e.WellFormed) (t : SymbolTable) :
    ∃ cs, Derives t .atom cs e ∧ ∀ rest, e.writeCanonical t rest = cs ++ rest := by
  induction e with
  | operand o =>
    exact ⟨[o.toChar], .operand (Operand.ofChar?_toChar he), fun rest => rfl⟩
  | star e ih =>
    obtain ⟨cs, hd, hcs⟩ := ih he
    refine ⟨'(' :: (cs ++ [t.symbol .star] ++ [')']), hd.ofAtom.star.toUnion.brackets,
      fun rest => ?_⟩
    rw [writeCanonical, hcs]
    simp
  | concat l r ihl ihr =>
    obtain ⟨left, hl, hleft⟩ := ihl he.1
    obtain ⟨right, hr, hright⟩ := ihr he.2
    refine ⟨'(' :: (left ++ t.symbol .concat :: right ++ [')']),
      (hl.ofAtom.ofStar.concat hr.ofAtom).toUnion.brackets, fun rest => ?_⟩
    rw [writeCanonical, hleft, hright]
    simp
  | union l r ihl ihr =>
    obtain ⟨left, hl, hleft⟩ := ihl he.1
    obtain ⟨right, hr, hright⟩ := ihr he.2
    refine ⟨'(' :: (left ++ t.symbol .union :: right ++ [')']),
      (hl.toUnion.union hr.ofAtom.ofStar).brackets, fun rest => ?_⟩
    rw [writeCanonical, hleft, hright]
    simp

theorem derives_canonical (he : e.WellFormed) (t : SymbolTable) :
    Derives t .union (e.canonical t).toList e := by
  obtain ⟨cs, hd, hcs⟩ := exists_derives_writeCanonical he t
  rw [canonical, String.toList_ofList, hcs, List.append_nil]
  exact hd.toUnion

/-- **Writing and reading are inverse.**  Within the limits, what is written
with the fewest brackets and what is written with all of them are both read as
the expression that was written. -/
theorem parse_of_written (he : e.WellFormed) (hdepth : e.depth ≤ maxDepth) (t : SymbolTable) :
    ((e.display t).length ≤ maxLength → parse t (e.display t) = .ok e) ∧
    ((e.canonical t).length ≤ maxLength → parse t (e.canonical t) = .ok e) := by
  constructor
  · intro hlen
    exact parse_display he t hlen hdepth
  · intro hlen
    exact parse_eq_ok_iff.2 ⟨hlen, derives_canonical he t, hdepth⟩

/-- The left operand of a concatenation, the right one of a union and the one of
a repetition have brackets where they need them. -/
theorem parse_of_written_nested :
    ∃ e : Regex, e.WellFormed ∧ e.depth ≤ maxDepth ∧
      e.display .standard = "a+(ε+b|(∅+1)*)" ∧
      e.canonical .standard = "(a+(ε+(b|((∅+1)*))))" ∧
      parse .standard "a+(ε+b|(∅+1)*)" = .ok e ∧
      parse .standard "(a+(ε+(b|((∅+1)*))))" = .ok e := by
  let e : Regex := .union (.operand (.char 'a')) (.union .emptyString
    (.concat (.operand (.char 'b')) (.star (.union .emptySet (.operand (.char '1'))))))
  have he : e.WellFormed := by decide
  have hdepth : e.depth ≤ maxDepth := by decide
  have hdisplay : e.display .standard = "a+(ε+b|(∅+1)*)" := by decide
  have hcanonical : e.canonical .standard = "(a+(ε+(b|((∅+1)*))))" := by decide
  have h := parse_of_written he hdepth .standard
  rw [hdisplay, hcanonical] at h
  exact ⟨e, he, hdepth, hdisplay, hcanonical, h.1 (by decide), h.2 (by decide)⟩

/-! ### Needless brackets -/

/-- A pair of brackets may be taken out of the text without a change to the
tree. -/
def Redundant (t : SymbolTable) (n : Nonterminal) (cs : List Char) (e : Regex) : Prop :=
  ∃ xs ys zs, cs = xs ++ '(' :: (ys ++ ')' :: zs) ∧ Balanced ys ∧
    Derives t n (xs ++ (ys ++ zs)) e

theorem Redundant.imp (h : Redundant t m cs e) (hle : n.strength ≤ m.strength) :
    Redundant t n cs e := by
  obtain ⟨xs, ys, zs, hcs, hy, hd⟩ := h
  exact ⟨xs, ys, zs, hcs, hy, hd.weaken hle⟩

/-- A pair that is needless in a part of a text is needless in the whole, if
the whole derives with every text of the part. -/
theorem Redundant.within {d : Regex} (h : Redundant t m cs e) (before behind : List Char)
    (hd : ∀ cs, Derives t m cs e → Derives t n (before ++ (cs ++ behind)) d) :
    Redundant t n (before ++ (cs ++ behind)) d := by
  obtain ⟨xs, ys, zs, rfl, hy, hin⟩ := h
  refine ⟨before ++ xs, ys, zs ++ behind, by simp, hy, ?_⟩
  have := hd _ hin
  simpa using this

/-- In the place of a looser nonterminal, what was written for a tighter one
either has the same brackets or needless outer ones. -/
theorem eq_placed_or_redundant_of_le (he : e.WellFormed) (hle : n.strength ≤ m.strength) :
    e.placed t m.strength = e.placed t n.strength ∨
      Redundant t n (e.placed t m.strength) e := by
  by_cases hm : m.strength ≤ e.strength
  · rw [placed_of_le hm, placed_of_le (Nat.le_trans hle hm)]
    exact Or.inl rfl
  · rw [placed_of_lt (by omega)]
    by_cases hn : n.strength ≤ e.strength
    · -- the tighter place asks for brackets that the looser one does without
      refine Or.inr ⟨[], e.placed t 0, [], by simp, ?_, ?_⟩
      · exact (derives_placed he .union).balanced
      · rw [List.append_nil, List.nil_append, ← placed_of_le hn]
        exact derives_placed he n
    · exact Or.inl (placed_of_lt (by omega)).symm

/-- Where the operands on the two sides of a sign have the brackets that are
written or needless ones, so has the whole text. -/
theorem eq_or_redundant_of_operands {nl nr : Nonterminal} {op : Operator}
    {left right left' right' : List Char}
    (hin : ∀ {left right : List Char}, Derives t nl left l → Derives t nr right r →
      Derives t n (left ++ t.symbol op :: right) e)
    (hl : Derives t nl left l) (hr : Derives t nr right r)
    (hleft : left = left' ∨ Redundant t nl left l)
    (hright : right = right' ∨ Redundant t nr right r) :
    left ++ t.symbol op :: right = left' ++ t.symbol op :: right' ∨
      Redundant t n (left ++ t.symbol op :: right) e := by
  rcases hleft with rfl | hleft
  · rcases hright with rfl | hright
    · exact Or.inl rfl
    · -- a pair of the right operand, behind the left one and the sign
      have := hright.within (n := n) (d := e) (left ++ [t.symbol op]) []
        (fun cs hcs => by simpa using hin hl hcs)
      exact Or.inr (by simpa using this)
  · exact Or.inr (hleft.within [] (t.symbol op :: right) fun cs hcs => hin hcs hr)

/-- A derived text has either just the brackets that are written or a needless
pair. -/
theorem Derives.eq_placed_or_redundant (h : Derives t n cs e) :
    cs = e.placed t n.strength ∨ Redundant t n cs e := by
  -- the place of a nonterminal that another one is derived from
  have looser : ∀ {n m : Nonterminal} {cs : List Char} {e : Regex}, Derives t m cs e →
      n.strength ≤ m.strength → (cs = e.placed t m.strength ∨ Redundant t m cs e) →
      cs = e.placed t n.strength ∨ Redundant t n cs e := by
    rintro n m cs e h hle (rfl | hr)
    · exact eq_placed_or_redundant_of_le h.wellFormed hle
    · exact Or.inr (hr.imp hle)
  induction h with
  | @union left right l r hl hr ihl ihr =>
    refine (eq_or_redundant_of_operands .union hl hr ihl ihr).imp_left fun heq => ?_
    rw [heq]
    exact (placed_union t l r).symm
  | ofConcat h ih => exact looser h (by decide) ih
  | @concat left right l r hl hr ihl ihr =>
    refine (eq_or_redundant_of_operands .concat hl hr ihl ihr).imp_left fun heq => ?_
    rw [heq]
    exact (placed_concat t l r).symm
  | ofStar h ih => exact looser h (by decide) ih
  | @star left e h ih =>
    rcases ih with hleft | hleft
    · left
      rw [hleft]
      exact (placed_star t e).symm
    · right
      exact hleft.within [] [t.symbol .star] (fun cs hcs => hcs.star)
  | ofAtom h ih => exact looser h (by decide) ih
  | @operand c o h =>
    left
    obtain ⟨-, rfl⟩ := Operand.ofChar?_eq_some_iff.1 h
    rfl
  | @brackets cs e h ih =>
    rcases ih with hin | hin
    · cases e with
      | operand o =>
        -- an operand needs no brackets anywhere
        right
        refine ⟨[], cs, [], by simp, h.balanced, ?_⟩
        rw [List.append_nil, List.nil_append, hin]
        exact .operand (Operand.ofChar?_toChar h.wellFormed)
      | star | concat | union =>
        left
        rw [hin]
        exact (placed_of_lt (by simp [strength, Nonterminal.strength, Operator.strength])).symm
    · right
      exact hin.within ['('] [')'] (fun cs hcs => hcs.brackets)

/-- No other text that derives with the tree is as short as what is written. -/
theorem Derives.placed_le (h : Derives t n cs e) :
    (e.placed t n.strength).length ≤ cs.length ∧
      (cs.length = (e.placed t n.strength).length → cs = e.placed t n.strength) := by
  induction hk : cs.length using Nat.strongRecOn generalizing cs with
  | ind k ih =>
    subst hk
    rcases h.eq_placed_or_redundant with rfl | ⟨xs, ys, zs, rfl, -, hd⟩
    · exact ⟨Nat.le_refl _, fun _ => rfl⟩
    · -- without the pair the text derives with the same tree and is shorter
      have hlt : (xs ++ (ys ++ zs)).length < (xs ++ '(' :: (ys ++ ')' :: zs)).length := by
        simp only [List.length_append, List.length_cons]
        omega
      have hle := (ih _ hlt hd rfl).1
      exact ⟨by omega, fun heq => by omega⟩

end RegexAutomata.Regex
