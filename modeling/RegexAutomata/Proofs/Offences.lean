/-
The first offence in a text.

`Regex.validate` reads a text once, from the left, and carries along the number of brackets
that are open.  A beginning of the text is `Clean` if only brackets, operands and signs stand
in it and no beginning of it closes more brackets than it opens.

`Verdict` says what there is to answer about a text: that it is clean and closes what it opens,
or the first place where it is not.  Whatever has been read is clean, and the brackets that are
open are those that it has opened and not closed; so the answer is a verdict
(`verdict_validateFrom`), and as checking passes over what is clean, a text has no other one
(`verdict_iff`).  `first_offence` reads this off for each answer.
-/
import RegexAutomata.Proofs.Grammar

namespace RegexAutomata.Regex

open Text

variable {t : SymbolTable} {cs : List Char} {c : Char} {pos : Nat}
  {answer : Except ParseError Unit}

/-! ### Clean beginnings -/

/-- The character is a bracket, an operand or the sign of an operation. -/
def MayStand (t : SymbolTable) (c : Char) : Prop :=
  c = '(' ∨ c = ')' ∨ (∃ o : Operand, o.Proper ∧ o.toChar = c) ∨ ∃ op, t.symbol op = c

theorem isAllowed_iff : isAllowed t c = true ↔ MayStand t c := by
  simp only [isAllowed, MayStand, SymbolTable.isOperator, Bool.or_eq_true, beq_iff_eq,
    Option.isSome_iff_exists, Operand.ofChar?_eq_some_iff, SymbolTable.operator?_eq_some_iff,
    or_assoc]

/-- Only brackets, operands and signs stand in the text, and no beginning of it closes more
brackets than it opens. -/
structure Clean (t : SymbolTable) (cs : List Char) : Prop where
  mayStand : ∀ c ∈ cs, MayStand t c
  opened : ∀ xs, xs <+: cs → xs.count ')' ≤ xs.count '('

/-- The brackets that are open behind a clean text are those that it opens and does not
close. -/
theorem clean_and_count_iff {d : Nat} :
    Clean t cs ∧ cs.count '(' = d + cs.count ')' ↔ Allowed t cs ∧ depthAfter 0 cs = some d := by
  have hallowed : (∀ c ∈ cs, MayStand t c) ↔ Allowed t cs :=
    forall₂_congr fun c _ => isAllowed_iff.symm
  rw [depthAfter_eq_some_iff]
  simp only [Nat.zero_add]
  constructor
  · rintro ⟨h, hcount⟩
    exact ⟨hallowed.1 h.mayStand, h.opened, hcount⟩
  · rintro ⟨ha, hopened, hcount⟩
    exact ⟨⟨hallowed.2 ha, hopened⟩, hcount⟩

/-! ### Verdicts -/

/-- What there is to answer about a text: the first offence, if there is one. -/
inductive Verdict (t : SymbolTable) (cs : List Char) : Except ParseError Unit → Prop
  /-- The text is clean and closes all that it opens. -/
  | passed (h : Clean t cs) (hcount : cs.count '(' = cs.count ')') : Verdict t cs (.ok ())
  /-- Behind a clean beginning stands what may not stand anywhere. -/
  | illegal {c : Char} {pos : Nat} (h : Clean t (cs.take pos)) (hc : cs[pos]? = some c)
      (hnot : ¬ MayStand t c) : Verdict t cs (.error (.illegalAlphabet c pos))
  /-- A bracket is closed behind a clean beginning that leaves none open. -/
  | closing {pos : Nat} (h : Clean t (cs.take pos))
      (hcount : (cs.take pos).count '(' = (cs.take pos).count ')') (hc : cs[pos]? = some ')') :
      Verdict t cs (.error (.unbalancedBrackets pos))
  /-- The text is clean, and ends before all brackets are closed. -/
  | unclosed (h : Clean t cs) (hcount : cs.count ')' < cs.count '(') :
      Verdict t cs (.error (.unbalancedBrackets cs.length))

/-! ### Checking -/

theorem validateFrom_close_zero (pos : Nat) (rest : List Char) :
    validateFrom t pos 0 (')' :: rest) = .error (.unbalancedBrackets pos) := by
  simp [validateFrom]

theorem validateFrom_illegal (h : ¬ MayStand t c) (pos depth : Nat) (rest : List Char) :
    validateFrom t pos depth (c :: rest) = .error (.illegalAlphabet c pos) := by
  have ho : c ≠ '(' := fun hc => h (Or.inl hc)
  have hc : c ≠ ')' := fun hc => h (Or.inr (Or.inl hc))
  have hallowed : ¬ isAllowed t c = true := mt isAllowed_iff.1 h
  simp [validateFrom, ho, hc, hallowed]

/-- Whatever has been read is clean, so the check answers with the first offence. -/
theorem verdict_validateFrom_append {d : Nat} {xs : List Char} (ha : Allowed t xs)
    (hd : depthAfter 0 xs = some d) (cs : List Char) :
    Verdict t (xs ++ cs) (validateFrom t xs.length d cs) := by
  -- on what is left of the text: the invariant is what is known of the part that has been read
  induction cs generalizing xs d with
  | nil =>
    obtain ⟨hclean, hcount⟩ := clean_and_count_iff.2 ⟨ha, hd⟩
    rw [List.append_nil, validateFrom]
    split
    · exact .passed hclean (by omega)
    · exact .unclosed hclean (by omega)
  | cons c cs ih =>
    obtain ⟨hclean, hcount⟩ := clean_and_count_iff.2 ⟨ha, hd⟩
    have htake : (xs ++ c :: cs).take xs.length = xs := List.take_left
    have hget : (xs ++ c :: cs)[xs.length]? = some c := by
      rw [List.getElem?_append_right (Nat.le_refl _), Nat.sub_self, List.getElem?_cons_zero]
    have step : ∀ {d'}, isAllowed t c = true → depthAfter d [c] = some d' →
        Verdict t (xs ++ c :: cs) (validateFrom t (xs.length + 1) d' cs) := by
      intro d' hc hd'
      have ha' : Allowed t (xs ++ [c]) :=
        List.forall_mem_append.2 ⟨ha, List.forall_mem_singleton.2 hc⟩
      have hread := ih ha' (by rw [depthAfter_append, hd]; exact hd')
      rwa [List.append_assoc, List.length_append] at hread
    by_cases ho : c = '('
    · subst ho
      rw [validateFrom_open]
      exact step rfl rfl
    · by_cases hc : c = ')'
      · subst hc
        rcases d with _ | d
        · rw [validateFrom_close_zero]
          exact .closing (by rwa [htake]) (by rw [htake]; omega) hget
        · rw [validateFrom_close]
          exact step rfl rfl
      · by_cases hallowed : isAllowed t c = true
        · rw [validateFrom_allowed ho hc hallowed]
          exact step hallowed (depthAfter_plain ho hc d [])
        · have hnot := mt isAllowed_iff.2 hallowed
          rw [validateFrom_illegal hnot]
          exact .illegal (by rwa [htake]) hget hnot

/-- The check answers with a verdict on the text. -/
theorem verdict_validateFrom (t : SymbolTable) (cs : List Char) :
    Verdict t cs (validateFrom t 0 0 cs) := by
  have hnil : Allowed t [] := fun _ hc => absurd hc List.not_mem_nil
  exact verdict_validateFrom_append hnil rfl cs

/-- Checking passes over a clean beginning. -/
theorem Clean.validateFrom_eq {d : Nat} {xs : List Char} (h : Clean t xs)
    (hcount : xs.count '(' = d + xs.count ')') (rest : List Char) :
    validateFrom t 0 0 (xs ++ rest) = validateFrom t xs.length d rest := by
  obtain ⟨ha, hd⟩ := clean_and_count_iff.1 ⟨h, hcount⟩
  rw [validateFrom_append hd ha, Nat.zero_add]

/-- The brackets that a clean text leaves open can be counted. -/
theorem Clean.exists_count (h : Clean t cs) : ∃ d, cs.count '(' = d + cs.count ')' :=
  ⟨cs.count '(' - cs.count ')', (Nat.sub_add_cancel (h.opened cs List.prefix_rfl)).symm⟩

/-- A text around one of its characters. -/
theorem take_append_of_getElem? (h : cs[pos]? = some c) :
    cs.take pos ++ c :: cs.drop (pos + 1) = cs ∧ (cs.take pos).length = pos := by
  obtain ⟨hlt, rfl⟩ := List.getElem?_eq_some_iff.1 h
  rw [List.getElem_cons_drop, List.take_append_drop]
  exact ⟨rfl, List.length_take_of_le (Nat.le_of_lt hlt)⟩

/-- A text has no other verdict than the one that the check finds. -/
theorem Verdict.validateFrom_eq (h : Verdict t cs answer) : validateFrom t 0 0 cs = answer := by
  cases h with
  | passed h hcount =>
    have hread := h.validateFrom_eq (d := 0) (by omega) []
    rw [List.append_nil] at hread
    rw [hread]
    rfl
  | @illegal c pos h hc hnot =>
    obtain ⟨heq, hpos⟩ := take_append_of_getElem? hc
    obtain ⟨d, hcount⟩ := h.exists_count
    have hread := h.validateFrom_eq hcount (c :: cs.drop (pos + 1))
    rw [heq, hpos] at hread
    rw [hread, validateFrom_illegal hnot]
  | @closing pos h hcount hc =>
    obtain ⟨heq, hpos⟩ := take_append_of_getElem? hc
    have hread := h.validateFrom_eq (d := 0) (by omega) (')' :: cs.drop (pos + 1))
    rw [heq, hpos] at hread
    rw [hread, validateFrom_close_zero]
  | unclosed h hcount =>
    obtain ⟨d, hd⟩ := h.exists_count
    have hread := h.validateFrom_eq hd []
    rw [List.append_nil] at hread
    rw [hread, validateFrom, if_neg (by omega)]

theorem verdict_iff : Verdict t cs answer ↔ validateFrom t 0 0 cs = answer := by
  constructor
  · exact Verdict.validateFrom_eq
  · rintro rfl
    exact verdict_validateFrom t cs

/-! ### Whole texts -/

theorem verdict_ok_iff :
    Verdict t cs (.ok ()) ↔ Clean t cs ∧ cs.count '(' = cs.count ')' := by
  constructor
  · intro h
    cases h with
    | passed h hcount => exact ⟨h, hcount⟩
  · rintro ⟨h, hcount⟩
    exact .passed h hcount

theorem verdict_illegalAlphabet_iff :
    Verdict t cs (.error (.illegalAlphabet c pos)) ↔
      Clean t (cs.take pos) ∧ cs[pos]? = some c ∧ ¬ MayStand t c := by
  constructor
  · intro h
    cases h with
    | illegal h hc hnot => exact ⟨h, hc, hnot⟩
  · rintro ⟨h, hc, hnot⟩
    exact .illegal h hc hnot

theorem verdict_unbalancedBrackets_iff :
    Verdict t cs (.error (.unbalancedBrackets pos)) ↔
      (Clean t (cs.take pos) ∧ (cs.take pos).count '(' = (cs.take pos).count ')' ∧
        cs[pos]? = some ')') ∨
      (pos = cs.length ∧ Clean t cs ∧ cs.count ')' < cs.count '(') := by
  constructor
  · intro h
    cases h with
    | closing h hcount hc => exact Or.inl ⟨h, hcount, hc⟩
    | unclosed h hcount => exact Or.inr ⟨rfl, h, hcount⟩
  · rintro (⟨h, hcount, hc⟩ | ⟨rfl, h, hcount⟩)
    · exact .closing h hcount hc
    · exact .unclosed h hcount

/-- **The first offence.**  A text passes the check exactly if it is clean and opens as many
brackets as it closes.  A character is reported as illegal, or a bracket before the end of the
text as unbalanced, exactly if what stands before it is clean and it may not stand there; and
the end is reported exactly if all of the text is clean and some bracket is not closed.  There
are no other answers.  Positions count characters. -/
theorem first_offence (t : SymbolTable) (text : String) :
    let cs := text.toList
    (validate t text = .ok () ↔ Clean t cs ∧ cs.count '(' = cs.count ')') ∧
    (∀ c pos, validate t text = .error (.illegalAlphabet c pos) ↔
      Clean t (cs.take pos) ∧ cs[pos]? = some c ∧ ¬ MayStand t c) ∧
    (∀ pos < text.length, validate t text = .error (.unbalancedBrackets pos) ↔
      Clean t (cs.take pos) ∧ (cs.take pos).count '(' = (cs.take pos).count ')' ∧
        cs[pos]? = some ')') ∧
    (validate t text = .error (.unbalancedBrackets text.length) ↔
      Clean t cs ∧ cs.count ')' < cs.count '(') ∧
    (∀ error, validate t text = .error error →
      (∃ c, ∃ pos < text.length, error = .illegalAlphabet c pos) ∨
        ∃ pos ≤ text.length, error = .unbalancedBrackets pos) := by
  intro cs
  have hlen : text.length = cs.length := String.length_toList.symm
  have hverdict : ∀ {answer}, validate t text = answer ↔ Verdict t cs answer :=
    verdict_iff.symm
  rw [hlen]
  refine ⟨?_, fun c pos => ?_, fun pos hpos => ?_, ?_, fun error herror => ?_⟩
  · rw [hverdict, verdict_ok_iff]
  · rw [hverdict, verdict_illegalAlphabet_iff]
  · rw [hverdict, verdict_unbalancedBrackets_iff]
    exact or_iff_left fun h => Nat.ne_of_lt hpos h.1
  · -- no character stands at the end
    have hend : cs[cs.length]? = none := List.getElem?_eq_none (Nat.le_refl _)
    rw [hverdict, verdict_unbalancedBrackets_iff, hend, or_iff_right (by simp),
      and_iff_right rfl]
  · cases hverdict.1 herror with
    | @illegal c pos h hc hnot =>
      exact Or.inl ⟨c, pos, (List.getElem?_eq_some_iff.1 hc).1, rfl⟩
    | @closing pos h hcount hc =>
      exact Or.inr ⟨pos, Nat.le_of_lt (List.getElem?_eq_some_iff.1 hc).1, rfl⟩
    | unclosed h hcount => exact Or.inr ⟨cs.length, Nat.le_refl _, rfl⟩

/-- The three kinds of offence, in texts whose operands take more than one byte. -/
example : validate .standard "(ε+∅)x(" = .error (.unbalancedBrackets 7) ∧
    validate .standard "∅|ε)é" = .error (.unbalancedBrackets 3) ∧
    validate .standard "∅|(ε é" = .error (.illegalAlphabet ' ' 4) :=
  ⟨rfl, rfl, rfl⟩

end RegexAutomata.Regex
