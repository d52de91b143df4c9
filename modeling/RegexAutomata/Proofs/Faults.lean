/-
What is wrong with a text that is not read.

The reader takes off brackets and splits a text at its root, so what it complains about
concerns a part of the text.  A `Slice` is such a part together with what stands around it:
if anything stands right before it, that is an opening bracket or the sign of a binary
operation, and a closing bracket or such a sign stands right behind it, or else no binary
operation stands outside brackets in it.

* `Slice.culprit` — each fault in the structure of a part has its culprit in the whole text
  (`Culprit`): an operation that stands where an operand is due, brackets with nothing
  between them, an operand right behind another one;
* `reasons_of_refusal` — the same for whole texts, and the faults that do not occur at all;
* `position_of_unexpectedOperand` — where the second one of two operands is reported to be,
  which is not always where it is (`not_juxtaposed_of_unexpectedOperand`).
-/
import RegexAutomata.Proofs.Simplification

namespace RegexAutomata.Regex

open Text

variable {t : SymbolTable} {text before cs behind left right inner : List Char} {c : Char}
  {op : Operator} {pos : Nat} {error : ParseError}

/-! ### What stands next to an operand -/

/-- The character is the sign of a binary operation. -/
def IsBinarySign (t : SymbolTable) (c : Char) : Prop :=
  ∃ op : Operator, op.isBinary = true ∧ t.symbol op = c

/-- Nothing stands right before an operand, or an opening bracket, or the sign of a binary
operation. -/
def Awaits (t : SymbolTable) (before : List Char) : Prop :=
  ∀ c, before.getLast? = some c → c = '(' ∨ IsBinarySign t c

/-- Nothing stands right behind an operand, or a closing bracket, or the sign of a binary
operation. -/
def Stops (t : SymbolTable) (behind : List Char) : Prop :=
  ∀ c, behind.head? = some c → c = ')' ∨ IsBinarySign t c

/-- An operand may end with this character. -/
def EndsOperand (t : SymbolTable) (c : Char) : Prop :=
  (Operand.ofChar? c).isSome = true ∨ c = ')' ∨ c = t.symbol .star

instance (t : SymbolTable) (c : Char) : Decidable (EndsOperand t c) :=
  inferInstanceAs (Decidable (_ ∨ _))

/-- An operand may begin with this character. -/
def BeginsOperand (c : Char) : Prop := (Operand.ofChar? c).isSome = true ∨ c = '('

/-- The character at the position begins an operand, and the one before it ends one. -/
def Juxtaposed (t : SymbolTable) (cs : List Char) (pos : Nat) : Prop :=
  ∃ xs c d ys, cs = xs ++ c :: d :: ys ∧ xs.length + 1 = pos ∧ EndsOperand t c ∧
    BeginsOperand d

theorem awaits_nil : Awaits t [] := fun c hc => by simp at hc

theorem awaits_concat (before : List Char) (hc : c = '(' ∨ IsBinarySign t c) :
    Awaits t (before ++ [c]) := fun d hd => by
  rw [List.getLast?_concat, Option.some_inj] at hd
  exact hd ▸ hc

theorem stops_nil : Stops t [] := fun c hc => by simp at hc

theorem stops_cons (behind : List Char) (hc : c = ')' ∨ IsBinarySign t c) :
    Stops t (c :: behind) := fun d hd => by
  rw [List.head?_cons, Option.some_inj] at hd
  exact hd ▸ hc

theorem Juxtaposed.lt_length (h : Juxtaposed t cs pos) : 0 < pos ∧ pos < cs.length := by
  obtain ⟨xs, c, d, ys, rfl, rfl, -, -⟩ := h
  simp

/-- Where no sign stands outside brackets, an operand comes first. -/
theorem beginsOperand_of_not_stands (hcs : Balanced (c :: cs)) (hc : isAllowed t c = true)
    (h : ∀ op, ¬ Stands t op (c :: cs)) : BeginsOperand c := by
  have hno : t.operator? c = none := by
    rcases hop : t.operator? c with _ | op
    · rfl
    · exact absurd ⟨[], cs, by rw [SymbolTable.operator?_eq_some_iff.1 hop]; rfl, rfl⟩ (h op)
  rw [isAllowed, SymbolTable.isOperator, hno] at hc
  simp only [Bool.or_eq_true, beq_iff_eq, Option.isSome_none, Bool.false_eq_true, or_false] at hc
  rcases hc with (rfl | rfl) | hc
  · exact Or.inr rfl
  · exact absurd rfl hcs.ne_close
  · exact Or.inl hc

/-! ### Slices -/

/-- A part of a text that is read on its own, and what stands before and behind it. -/
structure Slice (t : SymbolTable) (text before cs behind : List Char) : Prop where
  text_eq : text = before ++ (cs ++ behind)
  balanced : Balanced cs
  allowed : Allowed t cs
  awaits : Awaits t before
  /-- What repetition applies to has no binary operation at its root. -/
  stops : Stops t behind ∨ ∀ op : Operator, op.isBinary = true → ¬ Stands t op cs
  /-- Only brackets have nothing between them. -/
  blank : cs = [] → text = [] ∨ ['(', ')'] <:+: text

namespace Slice

/-- A text that passes the check is a slice of itself. -/
theorem whole (h : validateFrom t 0 0 cs = .ok ()) : Slice t cs [] cs [] where
  text_eq := (List.append_nil cs).symm
  balanced := (of_validateFrom h).1
  allowed := (of_validateFrom h).2
  awaits := awaits_nil
  stops := Or.inl stops_nil
  blank := Or.inl

theorem unwrap (h : Slice t text before cs behind) (hcs : unwrap? cs = some inner) :
    Slice t text (before ++ ['(']) inner (')' :: behind) where
  text_eq := by
    rw [h.text_eq, unwrap?_eq_some hcs]
    simp
  balanced := h.balanced.unwrap hcs
  allowed c hc := h.allowed c (by rw [unwrap?_eq_some hcs]; simp [hc])
  awaits := awaits_concat before (Or.inl rfl)
  stops := Or.inl (stops_cons behind (Or.inl rfl))
  blank hinner := by
    refine Or.inr ⟨before, behind, ?_⟩
    rw [h.text_eq, unwrap?_eq_some hcs, hinner]
    simp

/-- Without its outer brackets a slice is one, and its position is known. -/
theorem exists_stripAll (h : Slice t text before cs behind) :
    ∃ before' behind', (stripAll before.length cs).1 = before'.length ∧
      Slice t text before' (stripAll before.length cs).2 behind' := by
  obtain ⟨start, hstart⟩ : ∃ start, before.length = start := ⟨_, rfl⟩
  rw [hstart]
  fun_induction stripAll start cs generalizing before behind with
  | case1 start cs inner hcs ih =>
    exact ih (h.unwrap hcs) (by rw [List.length_append, hstart, List.length_singleton])
  | case2 start cs hcs => exact ⟨before, behind, hstart.symm, h⟩

/-- What stands on the left of a root. -/
theorem leftPart (h : Slice t text before (left ++ t.symbol op :: right) behind)
    (hl : Balanced left) (hne : left ≠ [])
    (hop : op.isBinary = true ∨
      ∀ op' : Operator, op'.isBinary = true → ¬ Stands t op' (left ++ t.symbol op :: right)) :
    Slice t text before left (t.symbol op :: (right ++ behind)) where
  text_eq := by
    rw [h.text_eq]
    simp
  balanced := hl
  allowed c hc := h.allowed c (List.mem_append_left _ hc)
  awaits := h.awaits
  stops := hop.imp (fun hop => stops_cons _ (Or.inr ⟨op, hop, rfl⟩))
    fun hno op' hop' hs => hno op' hop' (hs.append_right _)
  blank hnil := absurd hnil hne

/-- What stands on the right of a binary root. -/
theorem rightPart (h : Slice t text before (left ++ t.symbol op :: right) behind)
    (hop : op.isBinary = true) (hl : Balanced left) (hr : Balanced right) (hne : right ≠ []) :
    Slice t text (before ++ left ++ [t.symbol op]) right behind where
  text_eq := by
    rw [h.text_eq]
    simp
  balanced := hr
  allowed c hc := h.allowed c (List.mem_append_right _ (List.mem_cons_of_mem _ hc))
  awaits := awaits_concat _ (Or.inr ⟨op, hop, rfl⟩)
  stops := Or.inl (h.stops.resolve_right fun hno => hno op hop ⟨left, right, rfl, hl⟩)
  blank hnil := absurd hnil hne

/-! ### Two operands next to each other -/

/-- What comes behind the end of an operand, if it begins with no sign, begins another
operand. -/
theorem juxtaposed {xs ys : List Char} (h : Slice t text before (xs ++ c :: ys) behind)
    (hx : Balanced (xs ++ [c])) (hc : EndsOperand t c) (hne : ys ≠ [])
    (hno : ∀ op, ¬ Stands t op ys) : Juxtaposed t text (before.length + xs.length + 1) := by
  obtain ⟨d, ys, rfl⟩ := List.exists_cons_of_ne_nil hne
  have hys : Balanced (d :: ys) := by
    have hb := h.balanced
    rw [List.append_cons] at hb
    exact hx.of_append hb
  refine ⟨before ++ xs, c, d, ys ++ behind, ?_, ?_, hc, ?_⟩
  · rw [h.text_eq]
    simp
  · rw [List.length_append]
  · exact beginsOperand_of_not_stands hys (h.allowed d (by simp)) hno

end Slice

/-- The position of the second one of two operands next to each other, or, if the first one
begins with a bracket, the position behind this bracket. -/
def Misplaced (t : SymbolTable) (cs : List Char) (pos : Nat) : Prop :=
  Juxtaposed t cs pos ∨
    ∃ xs ys zs, cs = xs ++ '(' :: (ys ++ ')' :: zs) ∧ xs.length + 1 = pos ∧ Balanced ys ∧
      Juxtaposed t cs (pos + ys.length + 1)

namespace Slice

/-- Without a root, two operands follow each other. -/
theorem misplaced_of_root?_eq_none (h : Slice t text before cs behind) (hne : cs ≠ [])
    (hunwrap : unwrap? cs = none) (hlone : loneOperand? cs = none) (hroot : root? t cs = none) :
    Misplaced t text (before.length + 1) := by
  have hno := not_stands_of_root?_eq_none h.balanced hroot
  obtain ⟨c, cs, rfl⟩ := List.exists_cons_of_ne_nil hne
  rcases beginsOperand_of_not_stands h.balanced (h.allowed c List.mem_cons_self) hno with
    hc | rfl
  · -- the first one is a single character
    obtain ⟨o, ho⟩ := Option.isSome_iff_exists.1 hc
    have hsingle : Balanced [c] :=
      balanced_singleton (Operand.ne_open_of_ofChar? ho) (Operand.ne_close_of_ofChar? ho)
    have hslice : Slice t text before ([] ++ c :: cs) behind := h
    refine Or.inl (hslice.juxtaposed hsingle (Or.inl hc) ?_ fun op hs =>
      hno op (hs.append_left hsingle))
    rintro rfl
    rw [loneOperand?, ho] at hlone
    simp at hlone
  · -- it stands in brackets, which do not reach to the end
    obtain ⟨ys, zs, rfl, hys, -⟩ := h.balanced.exists_of_open
    have hwrap : Balanced (('(' :: ys) ++ [')']) := hys.wrap
    have hslice : Slice t text before (('(' :: ys) ++ ')' :: zs) behind := h
    have hzs : zs ≠ [] := by
      rintro rfl
      rw [unwrap?_wrap hys] at hunwrap
      simp at hunwrap
    have hj : Juxtaposed t text (before.length + (ys.length + 1) + 1) :=
      hslice.juxtaposed hwrap (Or.inr (Or.inl rfl)) hzs fun op hs =>
        hno op (by simpa using hs.append_left hwrap)
    refine Or.inr ⟨before, ys, zs ++ behind, ?_, rfl, hys, ?_⟩
    · rw [h.text_eq]
      simp
    · rwa [show before.length + 1 + ys.length + 1 = before.length + (ys.length + 1) + 1 by omega]

/-- Beside a repetition at the root no binary operation stands outside brackets. -/
theorem not_stands_of_root?_star (hcs : Balanced cs) (hroot : root? t cs = some (pos, .star))
    (hop : op.isBinary = true) : ¬ Stands t op cs := fun hs =>
  Nat.not_le.2 (Operator.strength_lt_star hop) (strength_le_of_root? hcs hroot hs)

/-- What follows a repetition at the root is an operand. -/
theorem juxtaposed_of_root? (h : Slice t text before (left ++ t.symbol .star :: right) behind)
    (hl : Balanced left) (hne : right ≠ [])
    (hroot : root? t (left ++ t.symbol .star :: right) = some (left.length, .star)) :
    Juxtaposed t text (before.length + left.length + 1) := by
  have hplain : Balanced (left ++ [t.symbol .star]) := hl.append (balanced_symbol t .star)
  refine h.juxtaposed hplain (Or.inr (Or.inr rfl)) hne fun op hs => ?_
  by_cases hop : op = .star
  · subst hop
    exact not_stands_of_root? h.balanced hl hroot hs
  · refine not_stands_of_root?_star h.balanced hroot (Operator.isBinary_iff.2 hop) ?_
    simpa using hs.append_left hplain

end Slice

/-! ### Culprits -/

/-- What a text has to contain for a fault in its structure; the other faults are not looked
at here. -/
def Culprit (t : SymbolTable) (text : List Char) : ParseError → Prop
  | .emptyExpression => text = [] ∨ ['(', ')'] <:+: text
  | .emptyOperand op => ∃ xs ys, text = xs ++ t.symbol op :: ys ∧
      (Awaits t xs ∨ op.isBinary = true ∧ Stops t ys)
  | .unexpectedOperand (some pos) => Misplaced t text pos
  | .unexpectedOperand none => False
  | .unknownOperator _ => False
  | .illegalAlphabet _ _ | .unbalancedBrackets _ | .tooLong _ | .tooDeep => True

namespace Slice

/-- If the slices on the two sides of a root have their culprits, a slice with a root has
one. -/
theorem culprit_of_root? (h : Slice t text before cs behind)
    (hroot : root? t cs = some (pos, op))
    {read : Nat → List Char → Except ParseError Regex}
    (hread : ∀ {before cs behind error}, Slice t text before cs behind →
      read before.length cs = .error error → Culprit t text error)
    (herror : parseOperands read op before.length (before.length + pos + 1) (cs.take pos)
      (cs.drop (pos + 1)) = .error error) : Culprit t text error := by
  obtain ⟨left, right, rfl, rfl, hl, hr⟩ := exists_append_of_root? h.balanced hroot
  rw [List.take_left, List.drop_append, List.drop_of_length_le (Nat.le_succ _), List.nil_append,
    Nat.add_sub_cancel_left, List.drop_one, List.tail_cons] at herror
  rcases parseOperands_eq_error herror with ⟨rfl, rfl⟩ | ⟨hne, herror⟩ | ⟨hop, rfl, rfl⟩ |
    ⟨hop, hne, herror⟩ | ⟨rfl, hne, rfl⟩
  · exact ⟨before, right ++ behind, h.text_eq, Or.inl h.awaits⟩
  · refine hread (h.leftPart hl hne ?_) herror
    by_cases hop : op = .star
    · subst hop
      exact Or.inr fun op' hop' => not_stands_of_root?_star h.balanced hroot hop'
    · exact Or.inl (Operator.isBinary_iff.2 hop)
  · refine ⟨before ++ left, behind, ?_, Or.inr ⟨hop, ?_⟩⟩
    · rw [h.text_eq]
      simp
    · exact h.stops.resolve_right fun hno => hno op hop ⟨left, [], rfl, hl⟩
  · refine hread (h.rightPart hop hl hr hne) ?_
    rwa [List.length_append, List.length_append, List.length_singleton]
  · exact Or.inl (h.juxtaposed_of_root? hl hne hroot)

/-- Whatever is wrong with the structure of a slice, there is something in the text that it
is about. -/
theorem culprit {allowance : Nat} (h : Slice t text before cs behind)
    (herror : parseWithin t allowance before.length cs = .error error) :
    Culprit t text error := by
  -- on the allowance: what is read on the two sides of a root are slices again
  induction allowance generalizing before cs behind error with
  | zero =>
    cases herror
    exact trivial
  | succ allowance ih =>
    obtain ⟨before', behind', hstart, h'⟩ := h.exists_stripAll
    have hunwrap := unwrap?_stripAll before.length cs
    by_cases hne : (stripAll before.length cs).2 = []
    · rw [parseWithin_nil allowance hne] at herror
      cases herror
      exact h'.blank hne
    · rw [parseWithin_succ allowance before.length rfl hne, hstart] at herror
      generalize (stripAll before.length cs).2 = body at h' hne hunwrap herror
      split at herror
      · cases herror
      · rename_i hlone
        split at herror
        · rename_i hroot
          cases herror
          exact h'.misplaced_of_root?_eq_none hne hunwrap hlone hroot
        · rename_i root op hroot
          exact h'.culprit_of_root? hroot ih herror

end Slice

/-! ### Whole texts -/

/-- The check finds no fault in the structure. -/
theorem culprit_of_validateFrom {depth : Nat} (h : validateFrom t pos depth cs = .error error) :
    Culprit t text error := by
  fun_induction validateFrom t pos depth cs with
  | case1 pos => cases h
  | case2 pos depth hd =>
    cases h
    exact trivial
  | case3 pos depth cs ih => exact ih h
  | case4 pos cs ho =>
    cases h
    exact trivial
  | case5 pos cs depth ho ih => exact ih h
  | case6 pos depth c cs ho hc hallowed ih => exact ih h
  | case7 pos depth c cs ho hc hallowed =>
    cases h
    exact trivial

theorem culprit_of_parseChars (h : parseChars t cs = .error error) : Culprit t cs error := by
  rw [parseChars] at h
  split at h
  · cases h
    exact trivial
  · rcases hv : validateFrom t 0 0 cs with cause | ⟨⟩
    · rw [hv] at h
      cases h
      exact culprit_of_validateFrom hv
    · rw [hv] at h
      have hslice := Slice.whole hv
      exact hslice.culprit h

/-- A text without outer brackets and without a root is refused at position 1, whatever it
begins with. -/
theorem parse_of_root?_eq_none {text : String} (hlen : text.length ≤ maxLength)
    (hvalid : validateFrom t 0 0 text.toList = .ok ()) (hne : text.toList ≠ [])
    (hunwrap : unwrap? text.toList = none) (hlone : loneOperand? text.toList = none)
    (hroot : root? t text.toList = none) :
    parse t text = .error (.unexpectedOperand (some 1)) := by
  have hstrip : stripAll 0 text.toList = (0, text.toList) := by
    rw [stripAll]
    split
    · rename_i inner hinner
      rw [hunwrap] at hinner
      cases hinner
    · rfl
  rw [parse, parseChars, String.length_toList, if_neg (Nat.not_lt.2 hlen), hvalid]
  show parseWithin t (maxDepth + 1) 0 text.toList = _
  rw [parseWithin_succ maxDepth 0 (congrArg Prod.snd hstrip) hne, hlone, hroot, hstrip]

/-- Position 1 is answered for `(a)b` as well, before which no operand ends. -/
theorem parse_bracket :
    parse .standard "(a)b" = .error (.unexpectedOperand (some 1)) ∧
      ¬ Juxtaposed .standard "(a)b".toList 1 := by
  refine ⟨parse_of_root?_eq_none (by decide) rfl (by decide) rfl rfl rfl, ?_⟩
  rintro ⟨xs, c, d, ys, heq, hpos, hc, -⟩
  obtain rfl := List.length_eq_zero_iff.1 (Nat.succ.inj hpos)
  obtain rfl : '(' = c := (List.cons.inj heq).1
  exact absurd hc (by decide)

/-- **What is wrong with a text.**  Nothing is called an operation that is none, and no
operation is given too many operands: at the root that the search finds there is a sign of
the table.  A text that is said to be empty is so, or has brackets with nothing between
them.  An operation that is said to lack an operand has a sign in the text with nothing that
it could apply to before it or, if it is binary, behind it. -/
theorem reasons_of_refusal (t : SymbolTable) (text : String) :
    (∀ c, parse t text ≠ .error (.unknownOperator c) ∧
      simplify t text ≠ .error (.unknownOperator c)) ∧
    (parse t text ≠ .error (.unexpectedOperand none) ∧
      simplify t text ≠ .error (.unexpectedOperand none)) ∧
    (∀ cs pos op, root? t cs = some (pos, op) →
      ∃ c, cs[pos]? = some c ∧ t.operatorFor c = .ok op) ∧
    (parse t text = .error .emptyExpression → text = "" ∨ ['(', ')'] <:+: text.toList) ∧
    ∀ op, parse t text = .error (.emptyOperand op) →
      ∃ xs ys, text.toList = xs ++ t.symbol op :: ys ∧
        (Awaits t xs ∨ op.isBinary = true ∧ Stops t ys) := by
  have culprit : ∀ {error}, parse t text = .error error → Culprit t text.toList error :=
    fun h => culprit_of_parseChars h
  refine ⟨fun c => ⟨culprit, fun h => culprit (simplify_eq_error_iff.1 h)⟩,
    ⟨culprit, fun h => culprit (simplify_eq_error_iff.1 h)⟩, fun cs pos op hroot => ?_,
    fun h => ?_, fun op h => culprit h⟩
  · refine ⟨t.symbol op, getElem?_of_root? hroot, ?_⟩
    rw [SymbolTable.operatorFor, t.operator?_symbol]
  · rw [← String.toList_eq_nil_iff]
    exact culprit h

/-- **Where an operand is unexpected.**  The position that is reported is inside the text,
and an operand begins there right behind another one, unless the other one begins with a
bracket: then the position is the one behind this bracket, and the operand that has no
operation comes behind the partner of the bracket. -/
theorem position_of_unexpectedOperand {text : String} {pos : Nat}
    (h : parse t text = .error (.unexpectedOperand (some pos))) :
    0 < pos ∧ pos < text.length ∧
      (Juxtaposed t text.toList pos ∨
        ∃ xs ys zs, text.toList = xs ++ '(' :: (ys ++ ')' :: zs) ∧ xs.length + 1 = pos ∧
          Balanced ys ∧ Juxtaposed t text.toList (pos + ys.length + 1)) := by
  have hculprit : Misplaced t text.toList pos := culprit_of_parseChars h
  rw [← String.length_toList]
  rcases hculprit with hj | ⟨xs, ys, zs, heq, hpos, hys, hj⟩
  · exact ⟨hj.lt_length.1, hj.lt_length.2, Or.inl hj⟩
  · have hlt := hj.lt_length.2
    exact ⟨by omega, by omega, Or.inr ⟨xs, ys, zs, heq, hpos, hys, hj⟩⟩

/-- In `(a)b` the second operand is at position 3, and position 1, behind the bracket, is
reported. -/
theorem position_of_unexpectedOperand_bracket :
    parse .standard "(a)b" = .error (.unexpectedOperand (some 1)) ∧
      Juxtaposed .standard "(a)b".toList 3 := by
  obtain ⟨hparse, hnot⟩ := parse_bracket
  obtain ⟨-, -, h⟩ := position_of_unexpectedOperand hparse
  obtain ⟨xs, ys, zs, heq, hpos, hys, hj⟩ := h.resolve_left hnot
  obtain rfl := List.length_eq_zero_iff.1 (Nat.succ.inj hpos)
  -- the bracket closes right behind the first operand
  rcases ys with _ | ⟨y, _ | ⟨y', ys⟩⟩
  · simp at heq
  · exact ⟨hparse, hj⟩
  · obtain ⟨rfl, rfl, -⟩ : 'a' = y ∧ ')' = y' ∧ ['b'] = ys ++ ')' :: zs := by simpa using heq
    simp [Text.Balanced, depthAfter] at hys

/-- The position that is reported is not always the one of an operand behind another
one. -/
theorem not_juxtaposed_of_unexpectedOperand :
    ¬ ∀ (t : SymbolTable) (text : String) (pos : Nat),
      parse t text = .error (.unexpectedOperand (some pos)) →
        0 < pos ∧ pos < text.length ∧ Juxtaposed t text.toList pos := by
  intro hall
  obtain ⟨hparse, hnot⟩ := parse_bracket
  exact hnot (hall _ _ _ hparse).2.2

end RegexAutomata.Regex
