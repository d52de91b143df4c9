/-
Taking out needless brackets.

The search tries one pair of brackets after another, reads the text without it
and starts again where nothing has changed.  However it proceeds, it ends with
the text that the printer writes, because this is the only text without
needless brackets (`dropNeedlessPairs_eq`); and that text is shorter than all
others that are read as the same expression (`simplify_eq_display`).
-/
import RegexAutomata.Proofs.Printing
import RegexAutomata.Regex.Simplify

namespace RegexAutomata.Regex

open Text

variable {t : SymbolTable} {cs : List Char} {e : Regex}

theorem spells_iff : spells t e cs = true ↔ parseChars t cs = .ok e := by
  rw [spells]
  split
  · rename_i e' h
    rw [h, beq_iff_eq, Except.ok.injEq]
  · rename_i c h
    rw [h]
    simp

/-- A needless pair is found where the text is not the one that is written. -/
theorem needlessPair?_ne_none (h : parseChars t cs = .ok e) (hne : cs ≠ e.displayChars t) :
    needlessPair? t e cs ≠ none := by
  obtain ⟨hlen, hd, hdepth⟩ := parseChars_eq_ok_iff.1 h
  rcases hd.eq_placed_or_redundant with rfl | ⟨xs, ys, zs, rfl, hy, hin⟩
  · exact absurd rfl hne
  · intro hnone
    rw [needlessPair?, List.find?_eq_none] at hnone
    -- the text without this pair is read as the same expression
    refine hnone _ (mem_bracketPairs hy xs zs) ?_
    rw [erasePair_wrap, spells_iff, parseChars_eq_ok_iff]
    refine ⟨?_, hin, hdepth⟩
    simp only [List.length_append, List.length_cons] at hlen ⊢
    omega

/-- Whatever pairs are taken out, what is written is left. -/
theorem dropNeedlessPairs_eq (h : parseChars t cs = .ok e) :
    dropNeedlessPairs t e cs = e.displayChars t := by
  fun_induction dropNeedlessPairs t e cs with
  | case1 cs pair hpair ih =>
    -- what is read stays the same with every pair that is taken out
    have hspells := List.find?_some hpair
    exact ih (spells_iff.1 hspells)
  | case2 cs hnone =>
    by_cases heq : cs = e.displayChars t
    · exact heq
    · exact absurd hnone (needlessPair?_ne_none h heq)

theorem simplify_of_ok {text : String} (h : parse t text = .ok e) :
    simplify t text = .ok (e.display t) := by
  rw [simplify, h]
  show Except.ok (String.ofList (dropNeedlessPairs t e text.toList)) = _
  rw [dropNeedlessPairs_eq h]
  rfl

/-- What cannot be read is not shortened either, and nothing else goes wrong. -/
theorem simplify_eq_error_iff {text : String} {error : ParseError} :
    simplify t text = .error error ↔ parse t text = .error error := by
  rcases h : parse t text with cause | e
  · rw [simplify, h]
    show Except.error cause = _ ↔ _
    rw [Except.error.injEq, Except.error.injEq]
  · rw [simplify_of_ok h]
    simp

/-- **The search and the printer agree.**  Without its needless brackets a text
is what the printer writes for its expression, and this is the one shortest
text that is read as the expression.  A text that cannot be read is answered
with the reader's error. -/
theorem simplify_eq_display (t : SymbolTable) (text : String) :
    (∀ e, parse t text = .ok e →
      simplify t text = .ok (e.display t) ∧ parse t (e.display t) = .ok e ∧
      ∀ other, parse t other = .ok e →
        (e.display t).length ≤ other.length ∧
          (other.length = (e.display t).length → other = e.display t)) ∧
    (∀ error, parse t text = .error error → simplify t text = .error error) := by
  constructor
  · intro e h
    have shortest : ∀ other, parse t other = .ok e →
        (e.display t).length ≤ other.length ∧
          (other.length = (e.display t).length → other = e.display t) := by
      intro other hother
      -- the other text derives with the same tree, within the limits or not
      obtain ⟨-, hd, -⟩ := parse_eq_ok_iff.1 hother
      obtain ⟨hle, heq⟩ := hd.placed_le
      rw [← String.length_toList, ← String.length_toList, display, String.toList_ofList]
      refine ⟨hle, fun hlen => ?_⟩
      rw [← String.ofList_toList (s := other), heq hlen]
      rfl
    obtain ⟨hlen, hd, hdepth⟩ := parse_eq_ok_iff.1 h
    refine ⟨simplify_of_ok h, parse_display hd.wellFormed t ?_ hdepth, shortest⟩
    exact Nat.le_trans (shortest text h).1 hlen
  · intro error h
    rw [simplify, h]
    rfl

end RegexAutomata.Regex
