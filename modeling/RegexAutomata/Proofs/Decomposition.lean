/-
Taking a written expression apart.

The reader takes off all outer brackets at once and splits what is left at its root.  The same
can be done from outside, with `Text.stripOuter`, which takes off one pair, and
`Regex.rootIndex?`, which tells the position of the root:

* `exists_iterate_stripOuter` — taking off one pair after another, as long as there is one,
  leaves what the reader looks for a root in;
* `parse_stripOuter` — a text without its outer brackets is read as the same expression;
* `Rooted.splitsAt` — at its root a text falls into the texts of its operands;
* `decomposition_of_parse` — all of this for the texts that are read: the parts are read as
  the expressions below the root.
-/
import Mathlib
import RegexAutomata.Proofs.Parsing

namespace RegexAutomata

namespace Text

variable {text : String} {inner : List Char}

/-! ### One pair of brackets after another -/

theorem stripOuter_of_unwrap? (h : unwrap? text.toList = some inner) :
    stripOuter text = String.ofList inner := by
  rw [stripOuter, h]

theorem stripOuter_of_unwrap?_eq_none (h : unwrap? text.toList = none) :
    stripOuter text = text := by
  rw [stripOuter, h]

/-- What changes when brackets are taken off is the length. -/
theorem stripOuter_ne_self (h : unwrap? text.toList = some inner) : stripOuter text ≠ text := by
  intro heq
  have hlen := length_of_unwrap? h
  rw [← heq, stripOuter_of_unwrap? h, String.toList_ofList] at hlen
  omega

theorem stripOuter_eq_self_iff : stripOuter text = text ↔ unwrap? text.toList = none := by
  constructor
  · intro heq
    rcases h : unwrap? text.toList with _ | inner
    · rfl
    · exact absurd heq (stripOuter_ne_self h)
  · exact stripOuter_of_unwrap?_eq_none

/-- Taking off one pair of outer brackets after another ends with what is left when as many as
possible are taken off at once. -/
theorem exists_iterate_stripOuter (start : Nat) (text : String) :
    ∃ n, stripAll start text.toList = (start + n, (stripOuter^[n] text).toList) ∧
      ∀ k < n, stripOuter (stripOuter^[k] text) ≠ stripOuter^[k] text := by
  obtain ⟨cs, hcs⟩ : ∃ cs, text.toList = cs := ⟨_, rfl⟩
  rw [hcs]
  fun_induction stripAll start cs generalizing text with
  | case1 start cs inner h ih =>
    have hinner : unwrap? text.toList = some inner := hcs ▸ h
    obtain ⟨n, hn, hk⟩ := ih (stripOuter text)
      (by rw [stripOuter_of_unwrap? hinner, String.toList_ofList])
    refine ⟨n + 1, ?_, fun k hlt => ?_⟩
    · rw [hn, Function.iterate_succ_apply, Nat.add_right_comm, Nat.add_assoc]
    · rcases k with _ | k
      · exact stripOuter_ne_self hinner
      · rw [Function.iterate_succ_apply]
        exact hk k (Nat.lt_of_succ_lt_succ hlt)
  | case2 start cs h => exact ⟨0, by rw [← hcs]; rfl, fun k hlt => absurd hlt (Nat.not_lt_zero k)⟩

end Text

namespace Regex

open Text

variable {t : SymbolTable} {cs : List Char} {e : Regex} {text : String} {op : Operator}
  {o : Operand}

/-- A text without its outer brackets is read as the same expression. -/
theorem parse_stripOuter (h : parse t text = .ok e) : parse t (stripOuter text) = .ok e := by
  rcases hcs : unwrap? text.toList with _ | inner
  · rwa [stripOuter_of_unwrap?_eq_none hcs]
  · obtain ⟨hlen, hd, hdepth⟩ := parse_eq_ok_iff.1 h
    have hinner := length_of_unwrap? hcs
    rw [stripOuter_of_unwrap? hcs, parse_eq_ok_iff, String.toList_ofList, String.length_ofList]
    rw [← String.length_toList] at hlen
    exact ⟨by omega, hd.unwrap hcs, hdepth⟩

theorem parse_iterate_stripOuter (h : parse t text = .ok e) (n : Nat) :
    parse t (stripOuter^[n] text) = .ok e := by
  induction n with
  | zero => exact h
  | succ n ih =>
    rw [Function.iterate_succ_apply']
    exact parse_stripOuter ih

/-! ### The parts around the root -/

/-- The root of the text is its operation `op`, and what stands on its two sides derives the
expressions below; nothing stands behind a repetition. -/
structure SplitsAt (t : SymbolTable) (cs : List Char) (e : Regex) (op : Operator)
    (left right : List Char) : Prop where
  eq_append : cs = left ++ t.symbol op :: right
  root?_eq : root? t cs = some (left.length, op)
  left_derives : ∃ l, e.left? = some l ∧ Derives t .union left l
  right_derives : op = .star ∧ right = [] ∨ ∃ r, e.right? = some r ∧ Derives t .union right r

theorem Rooted.splitsAt (h : Rooted t cs e) (hop : e.operator? = some op) :
    ∃ left right, SplitsAt t cs e op left right := by
  cases h with
  | operand h => cases hop
  | @star left l hl =>
    cases hop
    exact ⟨left, [], rfl, root?_star hl, ⟨l, rfl, hl.toUnion⟩, Or.inl ⟨rfl, rfl⟩⟩
  | @concat left right l r hl hr =>
    cases hop
    exact ⟨left, right, rfl, root?_append hl hr (Nat.le_refl _) (Nat.lt_succ_self _),
      ⟨l, rfl, hl.toUnion⟩, Or.inr ⟨r, rfl, hr.toUnion⟩⟩
  | @union left right l r hl hr =>
    cases hop
    exact ⟨left, right, rfl, root?_append hl hr (Nat.le_refl _) (Nat.lt_succ_self _),
      ⟨l, rfl, hl.toUnion⟩, Or.inr ⟨r, rfl, hr.toUnion⟩⟩

/-- Brackets hide all operations between them, and an operand has none. -/
theorem Derives.root?_eq_none (h : Derives t .atom cs e) : root? t cs = none := by
  rw [root?, surplus, h.balanced.surplusFrom_eq, Outside.root?_eq_none_iff]
  intro op
  have hop : op.strength < Nonterminal.atom.strength := by cases op <;> decide
  rw [h.at?_scanOutside hop, Outside.at?_none]

theorem Rooted.eq_singleton (h : Rooted t cs (.operand o)) :
    cs = [o.toChar] ∧ root? t cs = none := by
  cases h with
  | operand hc =>
    rw [(Operand.ofChar?_eq_some_iff.1 hc).2]
    exact ⟨rfl, (Derives.operand hc).root?_eq_none⟩

/-- The parts of a text that keeps to the limits keep to them. -/
theorem SplitsAt.parse_eq {left right : List Char} (h : SplitsAt t cs e op left right)
    (hlen : cs.length ≤ maxLength) (hdepth : e.depth ≤ maxDepth) :
    (∃ l, e.left? = some l ∧ parse t (String.ofList left) = .ok l) ∧
      (op = .star ∧ right = [] ∨
        ∃ r, e.right? = some r ∧ parse t (String.ofList right) = .ok r) := by
  rw [h.eq_append, List.length_append, List.length_cons] at hlen
  have hread : ∀ {part c}, part.length ≤ maxLength → Derives t .union part c →
      c ∈ e.children → parse t (String.ofList part) = .ok c := by
    intro part c hpart hd hc
    rw [parse_eq_ok_iff, String.length_ofList, String.toList_ofList]
    exact ⟨hpart, hd, Nat.le_trans (Nat.le_of_lt (depth_lt_of_mem_children hc)) hdepth⟩
  constructor
  · obtain ⟨l, hl, hd⟩ := h.left_derives
    exact ⟨l, hl, hread (by omega) hd (mem_children_iff.2 (Or.inl hl))⟩
  · refine h.right_derives.imp_right ?_
    rintro ⟨r, hr, hd⟩
    exact ⟨r, hr, hread (by omega) hd (mem_children_iff.2 (Or.inr hr))⟩

/-! ### Whole texts -/

/-- **Taking an expression apart.**  One pair of outer brackets after another can be taken off
a text that is read as an expression; each of the texts on the way is read as the same one, and
the last of them is what the reader looks for a root in.  If the expression is an operand, this
is its character, which has no root.  Otherwise the root is the sign of the operation; what
stands before it is read as the left expression below it, and what stands behind it as the
right one, or nothing does behind a repetition. -/
theorem decomposition_of_parse (h : parse t text = .ok e) :
    ∃ n,
      let body := stripOuter^[n] text
      (∀ k < n, stripOuter (stripOuter^[k] text) ≠ stripOuter^[k] text) ∧
      stripOuter body = body ∧ stripAll 0 text.toList = (n, body.toList) ∧
      (∀ k, parse t (stripOuter^[k] text) = .ok e) ∧
      (∀ o, e = .operand o → body = o.print ∧ rootIndex? t body = none) ∧
      ∀ op, e.operator? = some op →
        ∃ i l, rootIndex? t body = some i ∧ body.toList[i]? = some (t.symbol op) ∧
          e.left? = some l ∧ parse t (String.ofList (body.toList.take i)) = .ok l ∧
          (op = .star ∧ body.toList.drop (i + 1) = [] ∨
            ∃ r, e.right? = some r ∧
              parse t (String.ofList (body.toList.drop (i + 1))) = .ok r) := by
  obtain ⟨n, hstrip, hchange⟩ := exists_iterate_stripOuter 0 text
  rw [Nat.zero_add] at hstrip
  refine ⟨n, ?_⟩
  intro body
  have hbody : unwrap? body.toList = none := by
    have := unwrap?_stripAll 0 text.toList
    rwa [hstrip] at this
  have hread : parse t body = .ok e := parse_iterate_stripOuter h n
  obtain ⟨hlen, hd, hdepth⟩ := parse_eq_ok_iff.1 hread
  rw [← String.length_toList] at hlen
  have hrooted : Rooted t body.toList e := hd.rooted hbody
  refine ⟨hchange, stripOuter_of_unwrap?_eq_none hbody, hstrip, parse_iterate_stripOuter h,
    fun o ho => ?_, fun op hop => ?_⟩
  · subst ho
    obtain ⟨heq, hroot⟩ := hrooted.eq_singleton
    refine ⟨?_, by rw [rootIndex?, hroot]; rfl⟩
    rw [← String.toList_inj, heq]
    simp [Operand.print]
  · obtain ⟨left, right, hsplit⟩ := hrooted.splitsAt hop
    obtain ⟨⟨l, hl, hleft⟩, hright⟩ := hsplit.parse_eq hlen hdepth
    have htake : body.toList.take left.length = left := by
      rw [hsplit.eq_append, List.take_left]
    have hdrop : body.toList.drop (left.length + 1) = right := by
      rw [hsplit.eq_append]
      simp
    refine ⟨left.length, l, ?_, getElem?_of_root? hsplit.root?_eq, hl, ?_, ?_⟩
    · rw [rootIndex?, hsplit.root?_eq]
      rfl
    · rwa [htake]
    · rwa [hdrop]

/-- Two pairs of brackets come off, and what is left falls apart at the concatenation. -/
theorem decomposition_of_parse_brackets :
    let e : Regex := .concat .emptySet (.star (.union .emptyString (.operand (.char 'a'))))
    parse .standard "((∅|(ε+a)*))" = .ok e ∧
      stripOuter^[2] "((∅|(ε+a)*))" = "∅|(ε+a)*" ∧
      rootIndex? .standard "∅|(ε+a)*" = some 1 ∧ parse .standard "∅" = .ok .emptySet ∧
      parse .standard "(ε+a)*" = .ok (.star (.union .emptyString (.operand (.char 'a')))) := by
  intro e
  have hparse : parse .standard "((∅|(ε+a)*))" = .ok e := by cbv
  have hbody : stripOuter^[2] "((∅|(ε+a)*))" = "∅|(ε+a)*" := by cbv
  have hroot : rootIndex? .standard "∅|(ε+a)*" = some 1 := by cbv
  have hall : stripAll 0 "((∅|(ε+a)*))".toList = (2, "∅|(ε+a)*".toList) := by cbv
  obtain ⟨n, -, -, hstrip, -, -, hop⟩ := decomposition_of_parse hparse
  obtain rfl : n = 2 := (Prod.mk.inj (hstrip.symm.trans hall)).1
  obtain ⟨i, l, hi, -, hl, hleft, hright⟩ := hop .concat rfl
  rw [hbody] at hi hleft hright
  cases hroot.symm.trans hi
  cases hl
  obtain ⟨r, hr, hright⟩ := hright.resolve_left fun h => by cases h.1
  cases hr
  exact ⟨hparse, hbody, hroot, hleft, hright⟩

end Regex

end RegexAutomata
