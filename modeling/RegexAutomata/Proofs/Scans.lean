/-
What the scans of a balanced text find.

The outer brackets, the root and the pairs of a text are found by three scans that do not know of
each other: one reads on until the first bracket is closed, one counts the brackets that are open,
and one keeps them on a stack.  In a balanced text all of them are about the same pairs of brackets
(`scans_of_balanced`).

The scan for the root can as well start from the end of the text, where the first operation of each
kind is the one to remember (`scanFromEnd`); that this finds the same root holds of any text
(`rootFromEnd?_eq`).  It is the rightmost of the loosest operations at positions before which as
many brackets are closed as opened (`IsRoot`, `root?_eq_some_iff_isRoot`).
-/
import RegexAutomata.Proofs.Decomposition
import RegexAutomata.Proofs.Offences
import RegexAutomata.Proofs.Partners

namespace RegexAutomata

theorem Operator.eq_of_strength_eq {op op' : Operator} (h : op.strength = op'.strength) :
    op = op' := by
  cases op <;> cases op' <;> revert h <;> decide

namespace Regex

open Text

variable {t : SymbolTable} {cs : List Char} {op : Operator} {i j : Nat}

/-! ### From the end -/

namespace Outside

theorem eq_of_at? {s s' : Outside} (h : ∀ op, s.at? op = s'.at? op) : s = s' := by
  obtain ⟨star, concat, union⟩ := s
  obtain ⟨star', concat', union'⟩ := s'
  obtain rfl : star = star' := h .star
  obtain rfl : concat = concat' := h .concat
  obtain rfl : union = union' := h .union
  rfl

/-- An operation is noted unless there is one of its kind on its right. -/
def noteNew (s : Outside) (pos : Nat) (op : Operator) : Outside :=
  if (s.at? op).isSome then s else s.note pos op

theorem at?_noteNew (s : Outside) (pos : Nat) (op op' : Operator) :
    (s.noteNew pos op).at? op' = (s.at? op').or (if op' = op then some pos else .none) := by
  rw [noteNew]
  by_cases hop : op' = op
  · subst hop
    rcases h : s.at? op' with _ | old
    · simp [at?_note]
    · simp [h]
  · rw [if_neg hop, Option.or_none]
    split
    · rfl
    · rw [at?_note, if_neg hop]

end Outside

/-- Read the text, which begins at position `pos`, from its end on.  The closing brackets less the
opening ones are counted, and where they are as many operations count. -/
def scanFromEnd (t : SymbolTable) : (pos : Nat) → List Char → Int × Outside
  | _, [] => (0, .none)
  | pos, c :: cs =>
    let (depth, seen) := scanFromEnd t (pos + 1) cs
    if c = ')' then (depth + 1, seen)
    else if c = '(' then (depth - 1, seen)
    else if depth = 0 then
      match t.operator? c with
      | some op => (depth, seen.noteNew pos op)
      | none => (depth, seen)
    else (depth, seen)

/-- The position and the operation of the root of a text, looked for from its end. -/
def rootFromEnd? (t : SymbolTable) (cs : List Char) : Option (Nat × Operator) :=
  (scanFromEnd t 0 cs).2.root?

theorem scanFromEnd_open (pos : Nat) (cs : List Char) :
    scanFromEnd t pos ('(' :: cs) =
      ((scanFromEnd t (pos + 1) cs).1 - 1, (scanFromEnd t (pos + 1) cs).2) := by
  simp [scanFromEnd]

theorem scanFromEnd_close (pos : Nat) (cs : List Char) :
    scanFromEnd t pos (')' :: cs) =
      ((scanFromEnd t (pos + 1) cs).1 + 1, (scanFromEnd t (pos + 1) cs).2) := by
  simp [scanFromEnd]

theorem scanFromEnd_plain {c : Char} (ho : c ≠ '(') (hc : c ≠ ')') (pos : Nat) (cs : List Char) :
    scanFromEnd t pos (c :: cs) =
      ((scanFromEnd t (pos + 1) cs).1,
        if (scanFromEnd t (pos + 1) cs).1 = 0 then
          match t.operator? c with
          | some op => (scanFromEnd t (pos + 1) cs).2.noteNew pos op
          | none => (scanFromEnd t (pos + 1) cs).2
        else (scanFromEnd t (pos + 1) cs).2) := by
  rw [scanFromEnd]
  simp only [if_neg ho, if_neg hc]
  split
  · split <;> rfl
  · rfl

/-- Brackets that are left open from the end on are left open from the beginning on. -/
theorem surplusFrom_eq_sub (t : SymbolTable) (pos : Nat) (depth : Int) (cs : List Char) :
    surplusFrom depth cs = depth - (scanFromEnd t pos cs).1 := by
  induction cs generalizing pos depth with
  | nil => exact (Int.sub_zero depth).symm
  | cons c cs ih =>
    by_cases ho : c = '('
    · subst ho
      rw [surplusFrom, if_pos rfl, ih (pos + 1), scanFromEnd_open]
      omega
    · by_cases hc : c = ')'
      · subst hc
        rw [surplusFrom, if_neg ho, if_pos rfl, ih (pos + 1), scanFromEnd_close]
        omega
      · rw [surplusFrom, if_neg ho, if_neg hc, ih (pos + 1), scanFromEnd_plain ho hc]

/-- What a scan from the end has seen comes before what was known from the beginning. -/
theorem at?_scanOutside_eq (pos : Nat) (depth : Int) (seen : Outside) (cs : List Char)
    (op : Operator) :
    (scanOutside t (surplusFrom depth cs) pos depth seen cs).at? op =
      ((scanFromEnd t pos cs).2.at? op).or (seen.at? op) := by
  induction cs generalizing pos depth seen with
  | nil => rw [scanOutside, scanFromEnd, Outside.at?_none, Option.none_or]
  | cons c cs ih =>
    by_cases ho : c = '('
    · subst ho
      rw [surplusFrom, if_pos rfl, scanOutside, if_pos rfl, ih, scanFromEnd_open]
    · by_cases hc : c = ')'
      · subst hc
        rw [surplusFrom, if_neg ho, if_pos rfl, scanOutside, if_neg ho, if_pos rfl, ih,
          scanFromEnd_close]
      · rw [surplusFrom, if_neg ho, if_neg hc, scanOutside, if_neg ho, if_neg hc,
          scanFromEnd_plain ho hc]
        -- both scans count operations at the same positions
        have hlevel : depth = surplusFrom depth cs ↔ (scanFromEnd t (pos + 1) cs).1 = 0 := by
          rw [surplusFrom_eq_sub t (pos + 1)]
          omega
        by_cases hd : depth = surplusFrom depth cs
        · rw [if_pos hd, if_pos (hlevel.1 hd)]
          rcases t.operator? c with _ | op'
          · exact ih _ _ _
          · -- the operation comes behind those on its right and before those on its left
            have hnote : (seen.note pos op').at? op =
                (if op = op' then some pos else none).or (seen.at? op) := by
              rw [Outside.at?_note]
              split <;> rfl
            simp only
            rw [ih, Outside.at?_noteNew, hnote, Option.or_assoc]
        · rw [if_neg hd, if_neg (hlevel.not.1 hd), ih]

/-- From either end the same root is found. -/
theorem rootFromEnd?_eq (t : SymbolTable) (cs : List Char) : rootFromEnd? t cs = root? t cs := by
  rw [rootFromEnd?, root?, surplus]
  congr 1
  refine Outside.eq_of_at? fun op => ?_
  rw [at?_scanOutside_eq, Outside.at?_none, Option.or_none]

/-! ### Which root is found -/

/-- As many brackets are closed as opened before the position. -/
def Level (cs : List Char) (i : Nat) : Prop := (cs.take i).count '(' = (cs.take i).count ')'

/-- The operation stands at the position, outside brackets; none that stands outside brackets binds
less tightly, and none of its own kind is further on the right. -/
structure IsRoot (t : SymbolTable) (cs : List Char) (i : Nat) (op : Operator) : Prop where
  getElem?_eq : cs[i]? = some (t.symbol op)
  level : Level cs i
  loosest (j : Nat) (op' : Operator) : cs[j]? = some (t.symbol op') → Level cs j →
    op.strength ≤ op'.strength
  rightmost (j : Nat) : cs[j]? = some (t.symbol op) → Level cs j → j ≤ i

theorem level_iff (h : Balanced cs) : Level cs i ↔ Balanced (cs.take i) := by
  rw [← List.take_append_drop i cs, Text.Balanced, depthAfter_append, Option.bind_eq_some_iff] at h
  obtain ⟨d, hd, -⟩ := h
  have hcount := (depthAfter_eq_some_iff.1 hd).2
  rw [Level, Text.Balanced, hd, Option.some_inj]
  omega

theorem stands_iff_exists (h : Balanced cs) :
    Stands t op cs ↔ ∃ i, cs[i]? = some (t.symbol op) ∧ Level cs i := by
  constructor
  · rintro ⟨xs, ys, rfl, hxs⟩
    refine ⟨xs.length, ?_, ?_⟩
    · rw [List.getElem?_append_right (Nat.le_refl _), Nat.sub_self, List.getElem?_cons_zero]
    · rwa [level_iff h, List.take_left]
  · rintro ⟨i, hi, hlevel⟩
    exact ⟨_, _, (take_append_of_getElem? hi).1.symm, (level_iff h).1 hlevel⟩

theorem IsRoot.of_root? (h : Balanced cs) (hroot : root? t cs = some (i, op)) :
    IsRoot t cs i op := by
  obtain ⟨left, right, rfl, rfl, hleft, -⟩ := exists_append_of_root? h hroot
  refine ⟨getElem?_of_root? hroot, by rwa [level_iff h, List.take_left], fun j op' hj hlevel => ?_,
    fun j hj hlevel => ?_⟩
  · exact strength_le_of_root? h hroot ((stands_iff_exists h).2 ⟨j, hj, hlevel⟩)
  · refine Nat.le_of_not_lt fun hlt => not_stands_of_root? h hleft hroot ?_
    obtain ⟨k, rfl⟩ := Nat.exists_eq_add_of_lt hlt
    rw [List.getElem?_append_right (by omega), Nat.add_assoc, Nat.add_sub_cancel_left,
      List.getElem?_cons_succ] at hj
    rw [level_iff h, Nat.add_assoc, List.take_length_add_append, List.take_succ_cons] at hlevel
    -- what stands between the two signs is balanced, as both are outside brackets
    have hk : Balanced (right.take k) :=
      (balanced_symbol t op).of_append (hleft.of_append hlevel)
    exact ⟨_, _, (take_append_of_getElem? hj).1.symm, hk⟩

theorem IsRoot.unique {op' : Operator} (h : IsRoot t cs i op) (h' : IsRoot t cs j op') :
    i = j ∧ op = op' := by
  obtain rfl : op = op' := Operator.eq_of_strength_eq (Nat.le_antisymm
    (h.loosest j op' h'.getElem?_eq h'.level) (h'.loosest i op h.getElem?_eq h.level))
  exact ⟨Nat.le_antisymm (h'.rightmost i h.getElem?_eq h.level)
    (h.rightmost j h'.getElem?_eq h'.level), rfl⟩

/-- The root that is found is the rightmost of the loosest operations outside brackets. -/
theorem root?_eq_some_iff_isRoot (h : Balanced cs) :
    root? t cs = some (i, op) ↔ IsRoot t cs i op := by
  refine ⟨IsRoot.of_root? h, fun hi => ?_⟩
  rcases hroot : root? t cs with _ | ⟨j, op'⟩
  · exact absurd ((stands_iff_exists h).2 ⟨i, hi.getElem?_eq, hi.level⟩)
      (not_stands_of_root?_eq_none h hroot op)
  · obtain ⟨rfl, rfl⟩ := hi.unique (.of_root? h hroot)
    rfl

theorem root?_eq_none_iff_level (h : Balanced cs) :
    root? t cs = none ↔ ∀ i op, cs[i]? = some (t.symbol op) → ¬Level cs i := by
  constructor
  · intro hroot i op hi hlevel
    exact not_stands_of_root?_eq_none h hroot op ((stands_iff_exists h).2 ⟨i, hi, hlevel⟩)
  · intro hnone
    rcases hroot : root? t cs with _ | ⟨i, op⟩
    · rfl
    · have hi := IsRoot.of_root? h hroot
      exact absurd hi.level (hnone i op hi.getElem?_eq)

/-! ### The three scans -/

/-- **The scans of a balanced text** agree about which brackets belong together.  Every bracket has
one partner.  The outer brackets come off just if they are partners, and what is left is balanced.
The root, from whichever end it is looked for, is the rightmost of the loosest operations before
which as many brackets are closed as opened.  The pairs that are listed are the partners, each of
them once and before those that enclose it; and any of them can be deleted without harm to the
others. -/
theorem scans_of_balanced (t : SymbolTable) {text : String} (h : Text.Balanced text.toList) :
    let cs := text.toList
    let pairs := bracketPairs cs
    (∀ i : Nat, cs[i]? = some '(' ∨ cs[i]? = some ')' → ∃! p, Partners cs p ∧ (p.1 = i ∨ p.2 = i)) ∧
    (stripOuter text ≠ text ↔ Partners cs (0, cs.length - 1)) ∧
    (Partners cs (0, cs.length - 1) →
      (stripOuter text).toList = cs.tail.dropLast ∧ Text.Balanced (stripOuter text).toList) ∧
    rootIndex? t text = (rootFromEnd? t cs).map Prod.fst ∧
    (∀ i, rootIndex? t text = some i ↔ ∃ op, IsRoot t cs i op) ∧
    (rootIndex? t text = none ↔
      ∀ (i : Nat) (op : Operator), cs[i]? = some (t.symbol op) → ¬Level cs i) ∧
    (∀ p, p ∈ pairs ↔ Partners cs p) ∧ pairs.Nodup ∧
    (∀ (i j : Nat) (inner outer : Nat × Nat), pairs[i]? = some inner → pairs[j]? = some outer →
      Encloses outer inner → i < j) ∧
    ∀ p ∈ pairs, Deletable cs p := by
  intro cs pairs
  have hstrip : stripOuter text ≠ text ↔ Partners cs (0, cs.length - 1) := by
    rw [h.partners_ends_iff, Ne, stripOuter_eq_self_iff, ← ne_eq, Option.ne_none_iff_exists']
  refine ⟨fun i => h.existsUnique_partners, hstrip, fun hends => ?_, ?_, fun i => ?_, ?_,
    fun p => mem_bracketPairs_iff h, nodup_bracketPairs cs, fun i j inner outer => lt_of_encloses,
    fun p hp => h.deletable ((mem_bracketPairs_iff h).1 hp)⟩
  · obtain ⟨inner, hinner⟩ := h.partners_ends_iff.1 hends
    rw [stripOuter_of_unwrap? hinner, String.toList_ofList]
    refine ⟨?_, h.unwrap hinner⟩
    rw [show cs = '(' :: (inner ++ [')']) from unwrap?_eq_some hinner, List.tail_cons,
      List.dropLast_concat]
  · rw [rootIndex?, rootFromEnd?_eq]
  · rw [rootIndex?, Option.map_eq_some_iff]
    constructor
    · rintro ⟨⟨_, op⟩, hroot, rfl⟩
      exact ⟨op, (root?_eq_some_iff_isRoot h).1 hroot⟩
    · rintro ⟨op, hroot⟩
      exact ⟨(i, op), (root?_eq_some_iff_isRoot h).2 hroot, rfl⟩
  · rw [rootIndex?, Option.map_eq_none_iff, root?_eq_none_iff_level h]

/-- One text with a root outside three pairs of brackets, one of which can be deleted, and one that
is a pair of brackets around others. -/
theorem scans_of_balanced_nested :
    let text := "(a|(b))*+(∅)"
    Text.Balanced text.toList ∧ bracketPairs text.toList = [(3, 5), (0, 6), (9, 11)] ∧
      stripOuter text = text ∧ (∃ op, IsRoot .standard text.toList 8 op) ∧
      Partners text.toList (0, 6) ∧ Partners "(a|b)*+(∅)".toList (0, 4) ∧
      Text.Balanced "((a)+b)".toList ∧ stripOuter "((a)+b)" = "(a)+b" := by
  intro text
  have htext : Text.Balanced text.toList := by cbv
  have hother : Text.Balanced "((a)+b)".toList := by cbv
  have hpairs : bracketPairs text.toList = [(3, 5), (0, 6), (9, 11)] := by cbv
  have hothers : bracketPairs "((a)+b)".toList = [(1, 3), (0, 6)] := by cbv
  have hroot : rootIndex? .standard text = some 8 := by cbv
  have herase : erasePair text.toList (3, 5) = "(a|b)*+(∅)".toList := by cbv
  have hlength : text.toList.length = 12 := by cbv
  obtain ⟨-, hstrip, -, -, hisRoot, -, hmem, -, -, hdelete⟩ := scans_of_balanced .standard htext
  obtain ⟨-, -, hstripped, -, -, -, hmem', -⟩ := scans_of_balanced .standard hother
  have houter : Partners text.toList (0, 6) := (hmem _).1 (by rw [hpairs]; decide)
  refine ⟨htext, hpairs, ?_, (hisRoot 8).1 hroot, houter, ?_, hother, ?_⟩
  · by_contra hne
    have hends := (hmem _).2 (hstrip.1 hne)
    rw [hpairs, hlength] at hends
    exact absurd hends (by decide)
  · have hleft := (hdelete (3, 5) (by rw [hpairs]; decide)).partners (0, 6) houter (by decide)
    rwa [herase] at hleft
  · have hends : Partners "((a)+b)".toList (0, 6) := (hmem' _).1 (by rw [hothers]; decide)
    rw [← String.toList_inj, (hstripped hends).1]
    cbv

end Regex

end RegexAutomata
