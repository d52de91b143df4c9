/-
Reading is deriving.

The reader has no grammar: it takes off outer brackets, looks for the root and
reads what stands on its two sides.  It reads exactly the texts that the grammar
derives, with the trees that the grammar gives them, as far as its allowance
reaches:

* `parseWithin_eq_ok_iff` — a text is read as a tree if it derives with this
  tree, and the tree is less deep than the allowance;
* `Derives.parseWithin_eq` — a derived text is not read for one reason only;
* `Derives.unique` — no text derives with two trees;
* `parse_iff_derives` — the same for whole texts with the limits on their length
  and depth.
-/
import RegexAutomata.Proofs.Root

namespace RegexAutomata.Regex

open Text

variable {t : SymbolTable} {n : Nonterminal} {cs : List Char} {e : Regex}

/-! ### One level of reading -/

theorem loneOperand?_eq_some {o : Operand} (h : loneOperand? cs = some o) :
    ∃ c, cs = [c] ∧ Operand.ofChar? c = some o := by
  rcases cs with _ | ⟨c, _ | ⟨d, cs⟩⟩
  · cases h
  · exact ⟨c, rfl, h⟩
  · cases h

theorem loneOperand?_append (left : List Char) {c : Char} (right : List Char)
    (hleft : left ≠ []) : loneOperand? (left ++ c :: right) = none := by
  obtain ⟨d, left, rfl⟩ := List.exists_cons_of_ne_nil hleft
  rw [List.cons_append, loneOperand?]
  rintro x hx
  have := congrArg List.length (List.cons.inj hx).2
  simp at this

/-- One level of reading, once the outer brackets are off. -/
theorem parseWithin_succ {body : List Char} (allowance start : Nat)
    (hbody : (stripAll start cs).2 = body) (hne : body ≠ []) :
    parseWithin t (allowance + 1) start cs =
      match loneOperand? body with
      | some o => .ok (.operand o)
      | none =>
        match root? t body with
        | none => .error (.unexpectedOperand (some ((stripAll start cs).1 + 1)))
        | some (root, op) =>
          parseOperands (parseWithin t allowance) op (stripAll start cs).1
            ((stripAll start cs).1 + root + 1) (body.take root) (body.drop (root + 1)) := by
  subst hbody
  rw [parseWithin]
  split
  · rename_i start' h
    rw [h] at hne
    exact absurd rfl hne
  · rename_i start' body h h'
    exact h' ▸ rfl

theorem parseWithin_operand {c : Char} {o : Operand} (h : Operand.ofChar? c = some o)
    (allowance start : Nat) (hbody : (stripAll start cs).2 = [c]) :
    parseWithin t (allowance + 1) start cs = .ok (.operand o) := by
  rw [parseWithin_succ allowance start hbody (by simp), loneOperand?, h]

/-- Reading a text with a known root reads what stands on its two sides. -/
theorem parseWithin_root {left right : List Char} {op : Operator} (allowance start : Nat)
    (hbody : (stripAll start cs).2 = left ++ t.symbol op :: right) (hleft : left ≠ [])
    (hroot : root? t (left ++ t.symbol op :: right) = some (left.length, op)) :
    parseWithin t (allowance + 1) start cs =
      parseOperands (parseWithin t allowance) op (stripAll start cs).1
        ((stripAll start cs).1 + left.length + 1) left right := by
  rw [parseWithin_succ allowance start hbody (by simp), loneOperand?_append left right hleft,
    hroot]
  simp only [List.take_left]
  rw [List.drop_append, List.drop_of_length_le (by omega), List.nil_append,
    show left.length + 1 - left.length = 1 by omega, List.drop_one, List.tail_cons]

theorem parseWithin_nil (allowance : Nat) {start : Nat} (hbody : (stripAll start cs).2 = []) :
    parseWithin t (allowance + 1) start cs = .error .emptyExpression := by
  rw [parseWithin]
  split
  · rfl
  · rename_i hne h
    rw [h] at hbody
    exact absurd hbody hne

/-- What reading with an allowance should give for a tree. -/
def readOf (allowance : Nat) (e : Regex) : Except ParseError Regex :=
  if e.depth < allowance then .ok e else .error .tooDeep

/-- Two operands that are read within an allowance are put together within the
next one. -/
theorem parseOperands_binary {read : Nat → List Char → Except ParseError Regex} {op : Operator}
    {start after allowance : Nat} {left right : List Char} {l r : Regex}
    (hop : op.isBinary = true) (hleft : left ≠ []) (hright : right ≠ [])
    (hl : read start left = readOf allowance l) (hr : read after right = readOf allowance r)
    (he : ofOperator op l (some r) = .ok e) (hdepth : e.depth = max l.depth r.depth + 1) :
    parseOperands read op start after left right = readOf (allowance + 1) e := by
  rw [parseOperands, if_neg hleft, hl]
  simp only [if_pos hop, if_neg hright, hr]
  rw [readOf, readOf, readOf, hdepth]
  -- the whole is as deep as the allowance permits if both operands are
  by_cases hdl : l.depth < allowance
  · by_cases hdr : r.depth < allowance
    · rw [if_pos hdl, if_pos hdr, if_pos (by omega)]
      exact he
    · rw [if_pos hdl, if_neg hdr, if_neg (by omega)]
      rfl
  · rw [if_neg hdl, if_neg (show ¬ max l.depth r.depth + 1 < allowance + 1 by omega)]
    rfl

theorem parseOperands_star {read : Nat → List Char → Except ParseError Regex}
    {start after allowance : Nat} {left : List Char} {l : Regex} (hleft : left ≠ [])
    (hl : read start left = readOf allowance l) :
    parseOperands read .star start after left [] = readOf (allowance + 1) (.star l) := by
  rw [parseOperands, if_neg hleft, hl, readOf, readOf, depth]
  by_cases hd : l.depth < allowance
  · rw [if_pos hd, if_pos (by omega)]
    rfl
  · rw [if_neg hd, if_neg (by omega)]
    rfl

/-- Once the left side of a root has been read, its operation decides about the right
side. -/
theorem parseOperands_of_left {read : Nat → List Char → Except ParseError Regex} {op : Operator}
    {start after : Nat} {left right : List Char} {l : Regex} (hleft : left ≠ [])
    (hl : read start left = .ok l) :
    parseOperands read op start after left right =
      if op.isBinary = true then
        if right = [] then .error (.emptyOperand op)
        else read after right >>= fun r => ofOperator op l (some r)
      else if right = [] then ofOperator op l none
      else .error (.unexpectedOperand (some after)) := by
  rw [parseOperands, if_neg hleft, hl]
  rfl

/-! ### Completeness -/

/-- A derived text is read as its tree, unless the tree is too deep. -/
theorem Derives.parseWithin_eq (h : Derives t .union cs e) (allowance start : Nat) :
    parseWithin t allowance start cs = readOf allowance e := by
  -- on the allowance, which is one less for what stands on the two sides of the root
  induction allowance generalizing start cs e with
  | zero => rfl
  | succ allowance ih =>
    have hb := ((derives_stripAll_iff start cs).2 h).rooted (unwrap?_stripAll start cs)
    obtain ⟨body, hbody⟩ : ∃ body, (stripAll start cs).2 = body := ⟨_, rfl⟩
    rw [hbody] at hb
    cases hb with
    | operand hc =>
      rw [parseWithin_operand hc allowance start hbody, readOf, depth, if_pos (Nat.succ_pos _)]
    | star hl =>
      rw [parseWithin_root allowance start hbody hl.ne_nil (root?_star hl)]
      exact parseOperands_star hl.ne_nil (ih hl.toUnion _)
    | concat hl hr =>
      rw [parseWithin_root allowance start hbody hl.ne_nil
        (root?_append hl hr (Nat.le_refl _) (Nat.lt_succ_self _))]
      exact parseOperands_binary rfl hl.ne_nil hr.ne_nil (ih hl.toUnion _) (ih hr.toUnion _)
        rfl rfl
    | union hl hr =>
      rw [parseWithin_root allowance start hbody hl.ne_nil
        (root?_append hl hr (Nat.le_refl _) (Nat.lt_succ_self _))]
      exact parseOperands_binary rfl hl.ne_nil hr.ne_nil (ih hl.toUnion _) (ih hr.toUnion _)
        rfl rfl

/-- No text derives with two trees. -/
theorem Derives.unique {e' : Regex} (h : Derives t .union cs e) (h' : Derives t .union cs e') :
    e = e' := by
  -- the reader, with an allowance for both trees, has one answer
  have hread := h.parseWithin_eq (max e.depth e'.depth + 1) 0
  rw [h'.parseWithin_eq, readOf, readOf, if_pos (by omega), if_pos (by omega)] at hread
  exact (Except.ok.inj hread).symm

/-! ### Soundness -/

/-- What reading the two sides of a root can have given. -/
theorem parseOperands_eq_ok {read : Nat → List Char → Except ParseError Regex} {op : Operator}
    {start after : Nat} {left right : List Char}
    (h : parseOperands read op start after left right = .ok e) :
    ∃ l, read start left = .ok l ∧
      ((op = .star ∧ right = [] ∧ e = .star l) ∨
        ∃ r, read after right = .ok r ∧
          ((op = .concat ∧ e = .concat l r) ∨ (op = .union ∧ e = .union l r))) := by
  by_cases hleft : left = []
  · rw [parseOperands, if_pos hleft] at h
    simp at h
  · rcases hl : read start left with c | l
    · rw [parseOperands, if_neg hleft, hl] at h
      cases h
    · rw [parseOperands_of_left hleft hl] at h
      refine ⟨l, rfl, ?_⟩
      split at h
      · rename_i hbin
        split at h
        · simp at h
        · rcases hr : read after right with c | r
          · rw [hr] at h
            cases h
          · rw [hr] at h
            replace h : ofOperator op l (some r) = .ok e := h
            refine Or.inr ⟨r, rfl, ?_⟩
            cases op with
            | star => cases h
            | concat => exact Or.inl ⟨rfl, (Except.ok.inj h).symm⟩
            | union => exact Or.inr ⟨rfl, (Except.ok.inj h).symm⟩
      · rename_i hbin
        split at h
        · rename_i hr
          cases op with
          | star => exact Or.inl ⟨rfl, hr, (Except.ok.inj h).symm⟩
          | concat => exact absurd rfl hbin
          | union => exact absurd rfl hbin
        · simp at h

/-- What can be wrong with the two sides of a root. -/
theorem parseOperands_eq_error {read : Nat → List Char → Except ParseError Regex} {op : Operator}
    {start after : Nat} {left right : List Char} {error : ParseError}
    (h : parseOperands read op start after left right = .error error) :
    (left = [] ∧ error = .emptyOperand op) ∨
    (left ≠ [] ∧ read start left = .error error) ∨
    (op.isBinary = true ∧ right = [] ∧ error = .emptyOperand op) ∨
    (op.isBinary = true ∧ right ≠ [] ∧ read after right = .error error) ∨
    (op = .star ∧ right ≠ [] ∧ error = .unexpectedOperand (some after)) := by
  by_cases hleft : left = []
  · rw [parseOperands, if_pos hleft] at h
    cases h
    exact Or.inl ⟨hleft, rfl⟩
  · rcases hl : read start left with c | l
    · rw [parseOperands, if_neg hleft, hl] at h
      exact Or.inr (Or.inl ⟨hleft, h⟩)
    · rw [parseOperands_of_left hleft hl] at h
      refine Or.inr (Or.inr ?_)
      by_cases hop : op = .star
      · subst hop
        rw [if_neg (by decide)] at h
        by_cases hright : right = []
        · rw [if_pos hright] at h
          cases h
        · rw [if_neg hright] at h
          cases h
          exact Or.inr (Or.inr ⟨rfl, hright, rfl⟩)
      · have hbin := Operator.isBinary_iff.2 hop
        rw [if_pos hbin] at h
        by_cases hright : right = []
        · rw [if_pos hright] at h
          cases h
          exact Or.inl ⟨hbin, hright, rfl⟩
        · rw [if_neg hright] at h
          rcases hr : read after right with c | r
          · rw [hr] at h
            exact Or.inr (Or.inl ⟨hbin, hright, h⟩)
          · -- a binary operation takes two operands
            rw [hr] at h
            cases op with
            | star => cases hbin
            | concat => cases h
            | union => cases h

/-- Derived operands on the two sides of the root make a derived text: what
the search passed over does not stand outside brackets in them. -/
theorem derives_of_root? {left right : List Char} {op : Operator} {l r : Regex}
    (hl : Derives t .union left l) (hr : Derives t .union right r)
    (h : root? t (left ++ t.symbol op :: right) = some (left.length, op))
    (hop : (op = .concat ∧ e = .concat l r) ∨ (op = .union ∧ e = .union l r)) :
    Derives t .union (left ++ t.symbol op :: right) e := by
  have hplain : Balanced (left ++ [t.symbol op]) := hl.balanced.append (balanced_symbol t op)
  have hcs : Balanced (left ++ t.symbol op :: right) :=
    hl.balanced.append (hr.balanced.cons (t.symbol_ne_open op) (t.symbol_ne_close op))
  have hself : ¬ Stands t op right := not_stands_of_root? hcs hl.balanced h
  -- what stands outside brackets in an operand stands so in the whole text
  have hleft : ∀ {op' : Operator}, op'.strength < op.strength → ¬ Stands t op' left :=
    fun hlt hs => Nat.not_le.2 hlt (strength_le_of_root? hcs h (hs.append_right _))
  have hright : ∀ {op' : Operator}, op'.strength < op.strength → ¬ Stands t op' right := by
    intro op' hlt hs
    refine Nat.not_le.2 hlt (strength_le_of_root? hcs h ?_)
    simpa using hs.append_left hplain
  rcases hop with ⟨rfl, rfl⟩ | ⟨rfl, rfl⟩
  · have hl' := hl.concat_of_not_stands (hleft (by decide))
    have hr' := hr.star_of_not_stands (hright (by decide)) hself
    exact (hl'.concat hr').ofConcat
  · exact hl.union (hr.concat_of_not_stands hself)

theorem derives_star_of_root? {left : List Char} {l : Regex} (hl : Derives t .union left l)
    (h : root? t (left ++ [t.symbol .star]) = some (left.length, .star)) :
    Derives t .union (left ++ [t.symbol .star]) (.star l) := by
  have hcs : Balanced (left ++ [t.symbol .star]) :=
    hl.balanced.append (balanced_symbol t .star)
  have hleft : ∀ {op' : Operator}, op'.strength < Operator.star.strength → ¬ Stands t op' left :=
    fun hlt hs => Nat.not_le.2 hlt (strength_le_of_root? hcs h (hs.append_right _))
  have hl' := hl.star_of_not_stands (hleft (by decide)) (hleft (by decide))
  exact hl'.star.ofStar.ofConcat

/-- What is read derives, and is less deep than the allowance. -/
theorem derives_of_parseWithin {allowance start : Nat}
    (h : parseWithin t allowance start cs = .ok e) :
    Derives t .union cs e ∧ e.depth < allowance := by
  induction allowance generalizing start cs e with
  | zero => cases h
  | succ allowance ih =>
    rw [← derives_stripAll_iff start cs]
    by_cases hne : (stripAll start cs).2 = []
    · rw [parseWithin] at h
      split at h
      · simp at h
      · rename_i hn hs
        rw [hs] at hne
        exact absurd hne hn
    · rw [parseWithin_succ allowance start rfl hne] at h
      generalize (stripAll start cs).2 = body at h hne
      split at h
      · -- a single character
        rename_i o ho
        obtain ⟨c, rfl, hc⟩ := loneOperand?_eq_some ho
        cases h
        exact ⟨(Derives.operand hc).toUnion, Nat.succ_pos _⟩
      · split at h
        · simp at h
        · rename_i root op hroot
          -- the text is split at its root from here on
          have hbody := eq_append_of_root? hroot
          have hlen : (body.take root).length = root := by
            have := congrArg List.length hbody
            simp only [List.length_append, List.length_cons, List.length_take,
              List.length_drop] at this ⊢
            omega
          generalize body.take root = left at *
          generalize body.drop (root + 1) = right at *
          subst hbody hlen
          obtain ⟨l, hl, ⟨rfl, rfl, rfl⟩ | ⟨r, hr, hop⟩⟩ := parseOperands_eq_ok h
          · obtain ⟨hl, hdl⟩ := ih hl
            exact ⟨derives_star_of_root? hl hroot, Nat.succ_lt_succ hdl⟩
          · obtain ⟨hl, hdl⟩ := ih hl
            obtain ⟨hr, hdr⟩ := ih hr
            refine ⟨derives_of_root? hl hr hroot hop, ?_⟩
            rcases hop with ⟨-, rfl⟩ | ⟨-, rfl⟩
            · rw [depth]
              omega
            · rw [depth]
              omega

theorem parseWithin_eq_ok_iff {allowance start : Nat} :
    parseWithin t allowance start cs = .ok e ↔
      Derives t .union cs e ∧ e.depth < allowance := by
  constructor
  · exact derives_of_parseWithin
  · rintro ⟨h, hd⟩
    rw [h.parseWithin_eq, readOf, if_pos hd]

/-! ### Whole texts -/

/-- A derived text is read as its tree within the limits, and answered with the
limit that it exceeds otherwise. -/
theorem Derives.parseChars_eq (h : Derives t .union cs e) :
    parseChars t cs =
      if maxLength < cs.length then .error (.tooLong cs.length)
      else if e.depth ≤ maxDepth then .ok e else .error .tooDeep := by
  rw [parseChars, h.validate]
  split
  · rfl
  · show parseWithin t (maxDepth + 1) 0 cs = _
    rw [h.parseWithin_eq, readOf]
    by_cases hd : e.depth ≤ maxDepth
    · rw [if_pos (by omega), if_pos hd]
    · rw [if_neg (by omega), if_neg hd]

theorem parseChars_eq_ok_iff :
    parseChars t cs = .ok e ↔
      cs.length ≤ maxLength ∧ Derives t .union cs e ∧ e.depth ≤ maxDepth := by
  constructor
  · intro h
    rw [parseChars] at h
    split at h
    · simp at h
    · rename_i hlen
      rcases hv : validateFrom t 0 0 cs with c | u
      · rw [hv] at h
        cases h
      · rw [hv] at h
        obtain ⟨hd, hdepth⟩ := parseWithin_eq_ok_iff.1
          (show parseWithin t (maxDepth + 1) 0 cs = .ok e from h)
        exact ⟨by omega, hd, by omega⟩
  · rintro ⟨hlen, h, hd⟩
    rw [h.parseChars_eq, if_neg (by omega), if_pos hd]

theorem parse_eq_ok_iff {text : String} :
    parse t text = .ok e ↔
      text.length ≤ maxLength ∧ Derives t .union text.toList e ∧ e.depth ≤ maxDepth := by
  rw [parse, parseChars_eq_ok_iff, String.length_toList]

/-- **Reading is deriving.**  A text is read as a tree exactly if it derives
with this tree and keeps to both limits; it derives with at most one tree; and
if it derives but exceeds a limit, it is answered with the limit on the length
first. -/
theorem parse_iff_derives (t : SymbolTable) (text : String) :
    (∀ e, parse t text = .ok e ↔
      text.length ≤ maxLength ∧ Derives t .union text.toList e ∧ e.depth ≤ maxDepth) ∧
    (∀ e e', Derives t .union text.toList e → Derives t .union text.toList e' → e = e') ∧
    (∀ e, Derives t .union text.toList e →
      (maxLength < text.length → parse t text = .error (.tooLong text.length)) ∧
      (text.length ≤ maxLength → maxDepth < e.depth → parse t text = .error .tooDeep)) := by
  refine ⟨fun e => parse_eq_ok_iff, fun e e' h h' => h.unique h', fun e h => ?_⟩
  have hread := h.parseChars_eq
  rw [String.length_toList] at hread
  constructor
  · intro hlen
    rw [parse, hread, if_pos hlen]
  · intro hlen hd
    rw [parse, hread, if_neg (by omega), if_neg (by omega)]

end RegexAutomata.Regex
