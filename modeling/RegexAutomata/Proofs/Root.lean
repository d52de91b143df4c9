/-
The search for the root of a written expression.

A sign `Stands` outside brackets in a text if it stands there behind a balanced
part.  Among the signs that stand outside brackets in a balanced text,
`Regex.root?` finds the rightmost one of the loosest kind:

* `eq_append_of_root?` — what is found is a sign of its operation, and
  `exists_append_of_root?` — it stands between balanced parts;
* `not_stands_of_root?_eq_none` — if nothing is found, no sign stands outside
  brackets;
* `strength_le_of_root?` — no operation that binds less tightly stands outside
  brackets;
* `not_stands_of_root?` — no sign of the same operation stands outside brackets
  on its right;
* `root?_append` and `root?_star` — where the grammar has put an operation at
  the root of a text, the search finds it.
-/
import RegexAutomata.Proofs.Grammar

namespace RegexAutomata.Regex

open Text

/-- A nonterminal derives, outside brackets, only operations that bind at
least as tightly as this. -/
def Nonterminal.strength : Nonterminal → Nat
  | .union => Operator.union.strength
  | .concat => Operator.concat.strength
  | .star => Operator.star.strength
  | .atom => Operator.star.strength + 1

/-! ### What a scan remembers -/

namespace Outside

/-- The rightmost position that was seen of an operation. -/
def at? (s : Outside) : Operator → Option Nat
  | .star => s.star
  | .concat => s.concat
  | .union => s.union

@[simp] theorem at?_none (op : Operator) : Outside.none.at? op = Option.none := by
  cases op <;> rfl

theorem at?_note (s : Outside) (pos : Nat) (op op' : Operator) :
    (s.note pos op).at? op' = if op' = op then some pos else s.at? op' := by
  cases op <;> cases op' <;> rfl

theorem at?_note_self (s : Outside) (pos : Nat) (op : Operator) :
    (s.note pos op).at? op = some pos := by
  rw [at?_note, if_pos rfl]

theorem root?_eq_some_iff {s : Outside} {pos : Nat} {op : Operator} :
    s.root? = some (pos, op) ↔
      s.at? op = some pos ∧ ∀ op' : Operator, op'.strength < op.strength → s.at? op' = .none := by
  obtain ⟨star, concat, union⟩ := s
  constructor
  · intro h
    -- the loosest operation that was seen decides
    rcases union with _ | u
    · rcases concat with _ | c
      · rcases star with _ | s
        · cases h
        · cases h
          refine ⟨rfl, fun op' h => ?_⟩
          cases op'
          · exact absurd h (by decide)
          · rfl
          · rfl
      · cases h
        refine ⟨rfl, fun op' h => ?_⟩
        cases op'
        · exact absurd h (by decide)
        · exact absurd h (by decide)
        · rfl
    · cases h
      exact ⟨rfl, fun op' h => absurd h (Nat.not_lt_zero _)⟩
  · rintro ⟨h, hlt⟩
    cases op with
    | union =>
      rw [at?] at h
      subst h
      rfl
    | concat =>
      have hc : concat = some pos := h
      have hu : union = .none := hlt .union (by decide)
      subst hc hu
      rfl
    | star =>
      have hs : star = some pos := h
      have hc : concat = .none := hlt .concat (by decide)
      have hu : union = .none := hlt .union (by decide)
      subst hs hc hu
      rfl

theorem root?_eq_none_iff {s : Outside} : s.root? = .none ↔ ∀ op, s.at? op = .none := by
  obtain ⟨star, concat, union⟩ := s
  constructor
  · intro h
    rcases union with _ | u
    · rcases concat with _ | c
      · rcases star with _ | s
        · intro op
          cases op <;> rfl
        · cases h
      · cases h
    · cases h
  · intro h
    have hs : star = .none := h .star
    have hc : concat = .none := h .concat
    have hu : union = .none := h .union
    subst hs hc hu
    rfl

end Outside

variable {t : SymbolTable} {n : Nonterminal} {cs : List Char} {e : Regex}

/-! ### Scanning -/

theorem scanOutside_append (level : Int) (pos : Nat) (depth : Int) (seen : Outside)
    (xs ys : List Char) :
    scanOutside t level pos depth seen (xs ++ ys) =
      scanOutside t level (pos + xs.length) (surplusFrom depth xs)
        (scanOutside t level pos depth seen xs) ys := by
  fun_induction scanOutside t level pos depth seen xs with
  | case1 pos depth seen => rfl
  | case2 pos depth seen cs ih =>
    rw [List.cons_append, scanOutside, if_pos rfl, ih, surplusFrom, if_pos rfl, List.length_cons]
    congr 1
    omega
  | case3 pos depth seen cs ho ih =>
    rw [List.cons_append, scanOutside, if_neg ho, if_pos rfl, ih, surplusFrom, if_neg ho,
      if_pos rfl, List.length_cons]
    congr 1
    omega
  | case4 pos seen c cs ho hc op hop ih =>
    rw [List.cons_append, scanOutside, if_neg ho, if_neg hc, if_pos rfl, hop, surplusFrom,
      if_neg ho, if_neg hc, List.length_cons]
    rw [show pos + (cs.length + 1) = pos + 1 + cs.length by omega]
    exact ih
  | case5 pos seen c cs ho hc hop ih =>
    rw [List.cons_append, scanOutside, if_neg ho, if_neg hc, if_pos rfl, hop, surplusFrom,
      if_neg ho, if_neg hc, List.length_cons]
    rw [show pos + (cs.length + 1) = pos + 1 + cs.length by omega]
    exact ih
  | case6 pos depth seen c cs ho hc hd ih =>
    rw [List.cons_append, scanOutside, if_neg ho, if_neg hc, if_neg hd, ih, surplusFrom,
      if_neg ho, if_neg hc, List.length_cons]
    congr 1
    omega

/-- Inside brackets nothing is seen. -/
theorem scanOutside_inside {d e : Nat} (h : depthAfter d cs = some e) (level : Int) (pos : Nat)
    (seen : Outside) : scanOutside t level pos (level + 1 + d) seen cs = seen := by
  fun_induction depthAfter d cs generalizing pos with
  | case1 d => rfl
  | case2 d cs ih =>
    rw [scanOutside, if_pos rfl]
    refine Eq.trans ?_ (ih h (pos + 1))
    congr 1
    omega
  | case3 cs ho => cases h
  | case4 cs d ho ih =>
    rw [scanOutside, if_neg ho, if_pos rfl]
    refine Eq.trans ?_ (ih h (pos + 1))
    congr 1
    omega
  | case5 d c cs ho hc ih =>
    rw [scanOutside, if_neg ho, if_neg hc, if_neg (by omega)]
    exact ih h (pos + 1)

theorem scanOutside_brackets (h : Balanced cs) (level : Int) (pos : Nat) (seen : Outside) :
    scanOutside t level pos level seen ('(' :: (cs ++ [')'])) = seen := by
  have hin := scanOutside_inside (t := t) h level (pos + 1) seen
  rw [Int.natCast_zero, Int.add_zero] at hin
  rw [scanOutside, if_pos rfl, scanOutside_append, h.surplusFrom_eq, hin, scanOutside,
    if_neg (by decide), if_pos rfl, scanOutside]

theorem scanOutside_symbol (level : Int) (pos : Nat) (seen : Outside) (op : Operator)
    (rest : List Char) :
    scanOutside t level pos level seen (t.symbol op :: rest) =
      scanOutside t level (pos + 1) level (seen.note pos op) rest := by
  rw [scanOutside, if_neg (t.symbol_ne_open op), if_neg (t.symbol_ne_close op), if_pos rfl,
    t.operator?_symbol]

/-- What a scan remembers of an operation was known before, or is one of its
signs in the text, at the level of the scan. -/
theorem at?_scanOutside (level : Int) (pos : Nat) (depth : Int) (seen : Outside)
    (cs : List Char) (op : Operator) :
    (scanOutside t level pos depth seen cs).at? op = seen.at? op ∨
      ∃ xs ys, cs = xs ++ t.symbol op :: ys ∧ surplusFrom depth xs = level ∧
        (scanOutside t level pos depth seen cs).at? op = some (pos + xs.length) := by
  -- a sign in the rest of the text is one in the whole of it
  have shift : ∀ {pos : Nat} {depth depth' : Int} {c : Char} {cs : List Char}
      {found : Option Nat}, (∀ xs, surplusFrom depth (c :: xs) = surplusFrom depth' xs) →
      (∃ xs ys, cs = xs ++ t.symbol op :: ys ∧ surplusFrom depth' xs = level ∧
        found = some (pos + 1 + xs.length)) →
      ∃ xs ys, c :: cs = xs ++ t.symbol op :: ys ∧ surplusFrom depth xs = level ∧
        found = some (pos + xs.length) := by
    rintro pos depth depth' c cs found hc ⟨xs, ys, rfl, hlevel, rfl⟩
    refine ⟨c :: xs, ys, rfl, (hc xs).trans hlevel, ?_⟩
    rw [List.length_cons]
    congr 1
    omega
  fun_induction scanOutside t level pos depth seen cs with
  | case1 => exact Or.inl rfl
  | case2 pos depth seen cs ih =>
    exact ih.imp_right (shift fun xs => by rw [surplusFrom, if_pos rfl])
  | case3 pos depth seen cs ho ih =>
    exact ih.imp_right (shift fun xs => by rw [surplusFrom, if_neg ho, if_pos rfl])
  | case4 pos seen c cs ho hc op' hop ih =>
    rcases ih with ih | ih
    · rw [ih, Outside.at?_note]
      by_cases h : op = op'
      · -- the sign that is read here is the one to remember
        subst h
        rw [if_pos rfl]
        exact Or.inr ⟨[], cs, by rw [SymbolTable.operator?_eq_some_iff.1 hop]; rfl, rfl, rfl⟩
      · rw [if_neg h]
        exact Or.inl rfl
    · exact Or.inr (shift (fun xs => by rw [surplusFrom, if_neg ho, if_neg hc]) ih)
  | case5 pos seen c cs ho hc hop ih =>
    exact ih.imp_right (shift fun xs => by rw [surplusFrom, if_neg ho, if_neg hc])
  | case6 pos depth seen c cs ho hc hd ih =>
    exact ih.imp_right (shift fun xs => by rw [surplusFrom, if_neg ho, if_neg hc])

/-- A scan of a derived text sees no operation that binds too loosely for its
nonterminal. -/
theorem Derives.at?_scanOutside (h : Derives t n cs e) {op : Operator}
    (hop : op.strength < n.strength) (level : Int) (pos : Nat) (seen : Outside) :
    (scanOutside t level pos level seen cs).at? op = seen.at? op := by
  -- a sign of the nonterminal's own operation is no sign of `op`
  have other : ∀ own : Operator, op.strength < own.strength → op ≠ own := by
    rintro own hlt rfl
    omega
  induction h generalizing pos seen with
  | union => exact absurd hop (Nat.not_lt_zero _)
  | ofConcat _ ih => exact absurd hop (Nat.not_lt_zero _)
  | concat hl hr ihl ihr =>
    rw [scanOutside_append, hl.balanced.surplusFrom_eq, scanOutside_symbol,
      ihr (Nat.lt_succ_of_lt hop), Outside.at?_note, if_neg (other .concat hop),
      ihl hop]
  | ofStar _ ih => exact ih (Nat.lt_succ_of_lt hop) pos seen
  | star h ih =>
    rw [scanOutside_append, h.balanced.surplusFrom_eq, scanOutside_symbol, scanOutside,
      Outside.at?_note, if_neg (other .star hop), ih hop]
  | ofAtom _ ih => exact ih (Nat.lt_succ_of_lt hop) pos seen
  | @operand c o h =>
    rw [scanOutside, if_neg (Operand.ne_open_of_ofChar? h),
      if_neg (Operand.ne_close_of_ofChar? h), if_pos rfl, t.operator?_of_ofChar? h, scanOutside]
  | brackets h _ => rw [scanOutside_brackets h.balanced]

/-! ### Signs outside brackets -/

/-- A sign of the operation stands in the text outside brackets. -/
def Stands (t : SymbolTable) (op : Operator) (cs : List Char) : Prop :=
  ∃ xs ys, cs = xs ++ t.symbol op :: ys ∧ Balanced xs

theorem Stands.append_right {op : Operator} {xs : List Char} (h : Stands t op xs)
    (ys : List Char) : Stands t op (xs ++ ys) := by
  obtain ⟨as, bs, rfl, ha⟩ := h
  exact ⟨as, bs ++ ys, by rw [List.append_assoc, List.cons_append], ha⟩

theorem Stands.append_left {op : Operator} {xs ys : List Char} (hx : Balanced xs)
    (h : Stands t op ys) : Stands t op (xs ++ ys) := by
  obtain ⟨as, bs, rfl, ha⟩ := h
  exact ⟨xs ++ as, bs, (List.append_assoc ..).symm, hx.append ha⟩

theorem Derives.concat_of_not_stands (h : Derives t .union cs e) (hu : ¬ Stands t .union cs) :
    Derives t .concat cs e := by
  cases h with
  | union hl hr => exact absurd ⟨_, _, rfl, hl.balanced⟩ hu
  | ofConcat h => exact h

theorem Derives.star_of_not_stands (h : Derives t .union cs e) (hu : ¬ Stands t .union cs)
    (hc : ¬ Stands t .concat cs) : Derives t .star cs e := by
  cases h.concat_of_not_stands hu with
  | concat hl hr => exact absurd ⟨_, _, rfl, hl.balanced⟩ hc
  | ofStar h => exact h

/-- A scan remembers a sign that stands outside brackets, or one on its right. -/
theorem at?_scanOutside_of_balanced {xs : List Char} (hx : Balanced xs) (op : Operator)
    (ys : List Char) (seen : Outside) :
    ∃ pos, xs.length ≤ pos ∧
      (scanOutside t 0 0 0 seen (xs ++ t.symbol op :: ys)).at? op = some pos := by
  rw [scanOutside_append, hx.surplusFrom_eq, scanOutside_symbol, Nat.zero_add]
  rcases RegexAutomata.Regex.at?_scanOutside (t := t) 0 (xs.length + 1) 0
    ((scanOutside t 0 0 0 seen xs).note xs.length op) ys op with h | ⟨as, bs, -, -, h⟩
  · exact ⟨xs.length, Nat.le_refl _, by rw [h, Outside.at?_note_self]⟩
  · exact ⟨_, by omega, h⟩

/-! ### The root -/

theorem root?_eq_some_iff (hcs : Balanced cs) {pos : Nat} {op : Operator} :
    root? t cs = some (pos, op) ↔
      (scanOutside t 0 0 0 .none cs).at? op = some pos ∧
        ∀ op' : Operator, op'.strength < op.strength →
          (scanOutside t 0 0 0 .none cs).at? op' = none := by
  rw [root?, surplus, hcs.surplusFrom_eq]
  exact Outside.root?_eq_some_iff

/-- What is found is a sign of its operation, at the level of the whole text. -/
theorem exists_of_root? {pos : Nat} {op : Operator} (h : root? t cs = some (pos, op)) :
    ∃ xs ys, cs = xs ++ t.symbol op :: ys ∧ surplusFrom 0 xs = surplus cs ∧ xs.length = pos := by
  have hat := (Outside.root?_eq_some_iff.1 h).1
  rcases at?_scanOutside (t := t) (surplus cs) 0 0 .none cs op with h' | ⟨xs, ys, heq, hlevel, h'⟩
  · rw [hat, Outside.at?_none] at h'
    cases h'
  · rw [hat, Nat.zero_add, Option.some_inj] at h'
    exact ⟨xs, ys, heq, hlevel, h'.symm⟩

theorem eq_append_of_root? {pos : Nat} {op : Operator} (h : root? t cs = some (pos, op)) :
    cs = cs.take pos ++ t.symbol op :: cs.drop (pos + 1) := by
  obtain ⟨xs, ys, rfl, -, rfl⟩ := exists_of_root? h
  rw [List.take_left, List.drop_append]
  simp

/-- The character at the position that is found is the sign of the operation. -/
theorem getElem?_of_root? {pos : Nat} {op : Operator} (h : root? t cs = some (pos, op)) :
    cs[pos]? = some (t.symbol op) := by
  obtain ⟨xs, ys, rfl, -, rfl⟩ := exists_of_root? h
  rw [List.getElem?_append_right (Nat.le_refl _), Nat.sub_self, List.getElem?_cons_zero]

/-- In a balanced text a sign is found between balanced parts. -/
theorem exists_append_of_root? (hcs : Balanced cs) {pos : Nat} {op : Operator}
    (h : root? t cs = some (pos, op)) :
    ∃ left right, cs = left ++ t.symbol op :: right ∧ left.length = pos ∧ Balanced left ∧
      Balanced right := by
  obtain ⟨left, right, rfl, hlevel, hpos⟩ := exists_of_root? h
  -- where no more brackets are open than closed, none is open
  obtain ⟨d, hd, -⟩ := Option.bind_eq_some_iff.1 ((depthAfter_append 0 left _).symm.trans hcs)
  have hsurplus := surplusFrom_of_depthAfter hd 0
  rw [Int.natCast_zero, Int.add_zero, hlevel, surplus, hcs.surplusFrom_eq, Int.zero_add] at hsurplus
  obtain rfl : d = 0 := by omega
  have hleft : Balanced left := hd
  exact ⟨left, right, rfl, hpos, hleft,
    Balanced.of_append (balanced_symbol t op) (hleft.of_append hcs)⟩

/-- Where nothing is found, no sign stands outside brackets. -/
theorem not_stands_of_root?_eq_none (hcs : Balanced cs) (h : root? t cs = none)
    (op : Operator) : ¬ Stands t op cs := by
  rintro ⟨xs, ys, rfl, hx⟩
  obtain ⟨p, -, hp⟩ := at?_scanOutside_of_balanced (t := t) hx op ys .none
  rw [root?, surplus, hcs.surplusFrom_eq, Outside.root?_eq_none_iff] at h
  rw [h op] at hp
  simp at hp

/-- Nothing looser than what is found stands outside brackets. -/
theorem strength_le_of_root? (hcs : Balanced cs) {pos : Nat} {op op' : Operator}
    (h : root? t cs = some (pos, op)) (hs : Stands t op' cs) : op.strength ≤ op'.strength := by
  obtain ⟨xs, ys, rfl, hx⟩ := hs
  refine Nat.le_of_not_lt fun hlt => ?_
  -- the scan would remember a sign of the looser operation
  have hnone := ((root?_eq_some_iff hcs).1 h).2 op' hlt
  obtain ⟨p, -, hp⟩ := at?_scanOutside_of_balanced (t := t) hx op' ys .none
  rw [hnone] at hp
  simp at hp

/-- Nothing of the same kind stands outside brackets on the right of what is
found. -/
theorem not_stands_of_root? {left right : List Char} {op : Operator}
    (hcs : Balanced (left ++ t.symbol op :: right)) (hl : Balanced left)
    (h : root? t (left ++ t.symbol op :: right) = some (left.length, op)) :
    ¬ Stands t op right := by
  rintro ⟨xs, ys, rfl, hx⟩
  have hat := ((root?_eq_some_iff hcs).1 h).1
  -- the scan would remember the sign on the right, or one that comes after it
  have hbal : Balanced (left ++ t.symbol op :: xs) :=
    hl.append (hx.cons (t.symbol_ne_open op) (t.symbol_ne_close op))
  obtain ⟨p, hp, hat'⟩ := at?_scanOutside_of_balanced (t := t) hbal op ys .none
  rw [List.append_assoc, List.cons_append, hat, Option.some_inj] at hat'
  rw [List.length_append, List.length_cons] at hp
  omega

/-- A sign is the root if all looser signs and those of its own kind that may
stand outside brackets are excluded around it. -/
theorem root?_append {nl nr : Nonterminal} {left right : List Char} {l r : Regex}
    {op : Operator} (hl : Derives t nl left l) (hr : Derives t nr right r)
    (hnl : op.strength ≤ nl.strength) (hnr : op.strength < nr.strength) :
    root? t (left ++ t.symbol op :: right) = some (left.length, op) := by
  have hcs : Balanced (left ++ t.symbol op :: right) :=
    hl.balanced.append (hr.balanced.cons (t.symbol_ne_open op) (t.symbol_ne_close op))
  rw [root?_eq_some_iff hcs, scanOutside_append, hl.balanced.surplusFrom_eq, scanOutside_symbol,
    Nat.zero_add]
  constructor
  · -- the text on the right leaves the position as it was noted
    rw [hr.at?_scanOutside hnr, Outside.at?_note_self]
  · -- looser operations stand on neither side
    intro op' hlt
    rw [hr.at?_scanOutside (by omega), Outside.at?_note, if_neg,
      hl.at?_scanOutside (by omega), Outside.at?_none]
    rintro rfl
    omega

theorem root?_star {left : List Char} (hl : Derives t .star left e) :
    root? t (left ++ [t.symbol .star]) = some (left.length, .star) := by
  have hcs : Balanced (left ++ [t.symbol .star]) :=
    hl.balanced.append (balanced_symbol t .star)
  rw [root?_eq_some_iff hcs, scanOutside_append, hl.balanced.surplusFrom_eq, scanOutside_symbol,
    Nat.zero_add, scanOutside]
  refine ⟨Outside.at?_note_self _ _ _, fun op' hlt => ?_⟩
  rw [Outside.at?_note, if_neg, hl.at?_scanOutside hlt, Outside.at?_none]
  rintro rfl
  omega

end RegexAutomata.Regex
