/-
Nesting of round brackets.

`Text.depthAfter d cs` is the number of brackets that are open behind `cs` when
`d` are open before it, if no closing bracket lacks a partner; a text is
`Text.Balanced` if it leads from no open bracket to none.

* `Balanced.exists_of_open` — a bracket that a balanced text begins with has its
  partner, with balanced parts between the two and behind;
* `unwrap?_wrap` and `unwrap?_append` — the outer brackets of a text belong
  together when what stands between them is balanced, and do not when a balanced
  beginning of the text stops short of its end;
* `mem_bracketPairs` — the brackets around a balanced part of a text are a pair,
  and `erasePair_wrap` deletes just the two of them.
-/
import RegexAutomata.Regex.Root
import RegexAutomata.Text.Brackets

namespace RegexAutomata.Text

/-- The number of brackets that are open behind a text when `depth` are open
before it; none if a closing bracket has no partner. -/
def depthAfter : (depth : Nat) → List Char → Option Nat
  | depth, [] => some depth
  | depth, c :: cs =>
    if c = '(' then depthAfter (depth + 1) cs
    else if c = ')' then
      match depth with
      | 0 => none
      | depth + 1 => depthAfter depth cs
    else depthAfter depth cs

/-- Every bracket of the text has its partner in the text. -/
def Balanced (cs : List Char) : Prop := depthAfter 0 cs = some 0

instance (cs : List Char) : Decidable (Balanced cs) := inferInstanceAs (Decidable (_ = _))

@[simp] theorem depthAfter_open (d : Nat) (cs : List Char) :
    depthAfter d ('(' :: cs) = depthAfter (d + 1) cs := by simp [depthAfter]

@[simp] theorem depthAfter_close (d : Nat) (cs : List Char) :
    depthAfter (d + 1) (')' :: cs) = depthAfter d cs := by simp [depthAfter]

theorem depthAfter_plain {c : Char} (ho : c ≠ '(') (hc : c ≠ ')') (d : Nat) (cs : List Char) :
    depthAfter d (c :: cs) = depthAfter d cs := by
  simp [depthAfter, ho, hc]

theorem depthAfter_append (d : Nat) (xs ys : List Char) :
    depthAfter d (xs ++ ys) = (depthAfter d xs).bind fun e => depthAfter e ys := by
  fun_induction depthAfter d xs with
  | case1 d => rfl
  | case2 d cs ih => rw [List.cons_append, depthAfter_open, ih]
  | case3 cs ho => simp [depthAfter]
  | case4 cs d ho ih => rw [List.cons_append, depthAfter_close, ih]
  | case5 d c cs ho hc ih => rw [List.cons_append, depthAfter_plain ho hc, ih]

/-- Brackets that are open all the time change nothing. -/
theorem depthAfter_add {d e : Nat} {cs : List Char} (k : Nat) (h : depthAfter d cs = some e) :
    depthAfter (d + k) cs = some (e + k) := by
  fun_induction depthAfter d cs with
  | case1 d =>
    cases h
    rfl
  | case2 d cs ih =>
    have := ih h
    rwa [depthAfter_open, Nat.add_right_comm]
  | case3 cs ho => cases h
  | case4 cs d ho ih =>
    have := ih h
    -- the bracket that is closed was opened behind those that are open all the time
    show depthAfter (d + 1 + k) (')' :: cs) = some (e + k)
    rwa [Nat.add_right_comm, depthAfter_close]
  | case5 d c cs ho hc ih =>
    have := ih h
    rwa [depthAfter_plain ho hc]

theorem Balanced.depthAfter_eq {cs : List Char} (h : Balanced cs) (d : Nat) :
    depthAfter d cs = some d := by
  have := depthAfter_add d h
  rwa [Nat.zero_add] at this

theorem Balanced.append {xs ys : List Char} (hx : Balanced xs) (hy : Balanced ys) :
    Balanced (xs ++ ys) := by
  rw [Balanced, depthAfter_append, hx]
  exact hy

theorem Balanced.wrap {cs : List Char} (h : Balanced cs) : Balanced ('(' :: (cs ++ [')'])) := by
  rw [Balanced, depthAfter_open, depthAfter_append, h.depthAfter_eq]
  rfl

theorem balanced_singleton {c : Char} (ho : c ≠ '(') (hc : c ≠ ')') : Balanced [c] := by
  rw [Balanced, depthAfter_plain ho hc]
  rfl

theorem Balanced.cons {c : Char} {cs : List Char} (ho : c ≠ '(') (hc : c ≠ ')')
    (h : Balanced cs) : Balanced (c :: cs) :=
  (balanced_singleton ho hc).append h

theorem Balanced.of_append {xs ys : List Char} (hx : Balanced xs) (h : Balanced (xs ++ ys)) :
    Balanced ys := by
  rwa [Balanced, depthAfter_append, hx] at h

theorem Balanced.ne_close {c : Char} {cs : List Char} (h : Balanced (c :: cs)) : c ≠ ')' := by
  rintro rfl
  simp [Balanced, depthAfter] at h

/-- Behind an open bracket comes the one that closes it, and a balanced rest. -/
theorem exists_closing {d : Nat} {cs : List Char} (h : depthAfter (d + 1) cs = some 0) :
    ∃ ys zs, cs = ys ++ ')' :: zs ∧ depthAfter d ys = some 0 ∧ Balanced zs := by
  induction cs generalizing d with
  | nil => simp [depthAfter] at h
  | cons c cs ih =>
    by_cases ho : c = '('
    · subst ho
      rw [depthAfter_open] at h
      obtain ⟨ys, zs, rfl, hys, hzs⟩ := ih h
      exact ⟨'(' :: ys, zs, rfl, by rwa [depthAfter_open], hzs⟩
    · by_cases hc : c = ')'
      · subst hc
        rw [depthAfter_close] at h
        rcases d with _ | d
        · -- it was the only open one
          exact ⟨[], cs, rfl, rfl, h⟩
        · obtain ⟨ys, zs, rfl, hys, hzs⟩ := ih h
          exact ⟨')' :: ys, zs, rfl, by rwa [depthAfter_close], hzs⟩
      · rw [depthAfter_plain ho hc] at h
        obtain ⟨ys, zs, rfl, hys, hzs⟩ := ih h
        exact ⟨c :: ys, zs, rfl, by rwa [depthAfter_plain ho hc], hzs⟩

/-- A balanced text that begins with a bracket falls into what this one and its partner
enclose and what comes behind. -/
theorem Balanced.exists_of_open {cs : List Char} (h : Balanced ('(' :: cs)) :
    ∃ ys zs, cs = ys ++ ')' :: zs ∧ Balanced ys ∧ Balanced zs := by
  rw [Balanced, depthAfter_open] at h
  exact exists_closing h

/-- What holds of all beginnings of a text holds of the empty one and of those that its first
character begins. -/
theorem forall_prefix_cons_iff {P : List Char → Prop} {c : Char} {cs : List Char} :
    (∀ xs, xs <+: c :: cs → P xs) ↔ P [] ∧ ∀ xs, xs <+: cs → P (c :: xs) := by
  constructor
  · intro h
    exact ⟨h [] List.nil_prefix, fun xs hxs => h _ (List.cons_prefix_cons.2 ⟨rfl, hxs⟩)⟩
  · rintro ⟨hnil, hcons⟩ xs hxs
    rcases List.prefix_cons_iff.1 hxs with rfl | ⟨ys, rfl, hys⟩
    · exact hnil
    · exact hcons ys hys

/-- The depth by counting: no beginning of the text closes more brackets than are open
before it or opened in it. -/
theorem depthAfter_eq_some_iff {d e : Nat} {cs : List Char} :
    depthAfter d cs = some e ↔
      (∀ xs, xs <+: cs → xs.count ')' ≤ d + xs.count '(') ∧
        d + cs.count '(' = e + cs.count ')' := by
  fun_induction depthAfter d cs with
  | case1 d => simp
  | case2 d cs ih =>
    rw [ih, forall_prefix_cons_iff]
    simp [Nat.add_comm, Nat.add_left_comm]
  | case3 cs ho =>
    rw [forall_prefix_cons_iff]
    constructor
    · intro h
      cases h
    · -- the first bracket is a beginning that closes one too many
      rintro ⟨⟨-, h⟩, -⟩
      exact absurd (h [] List.nil_prefix) (by decide)
  | case4 cs d ho ih =>
    rw [ih, forall_prefix_cons_iff]
    simp [Nat.add_right_comm d 1, ← Nat.add_assoc]
  | case5 d c cs ho hc ih =>
    rw [ih, forall_prefix_cons_iff]
    simp [ho, hc]

/-- The surplus of opening brackets is what the depth changes by. -/
theorem surplusFrom_of_depthAfter {d e : Nat} {cs : List Char} (h : depthAfter d cs = some e)
    (level : Int) : Regex.surplusFrom (level + d) cs = level + e := by
  fun_induction depthAfter d cs with
  | case1 d =>
    cases h
    rfl
  | case2 d cs ih =>
    rw [Regex.surplusFrom, if_pos rfl, ← ih h]
    congr 1
    omega
  | case3 cs ho => cases h
  | case4 cs d ho ih =>
    rw [Regex.surplusFrom, if_neg ho, if_pos rfl, ← ih h]
    congr 1
    omega
  | case5 d c cs ho hc ih =>
    rw [Regex.surplusFrom, if_neg ho, if_neg hc]
    exact ih h

theorem Balanced.surplusFrom_eq {cs : List Char} (h : Balanced cs) (level : Int) :
    Regex.surplusFrom level cs = level := by
  simpa using surplusFrom_of_depthAfter h level

/-! ### Outer brackets -/

/-- What `closesAtEnd` does with a character that is not the last one. -/
theorem closesAtEnd_cons (d : Nat) (c : Char) {cs : List Char} (h : cs ≠ []) :
    closesAtEnd d (c :: cs) =
      if c = '(' then closesAtEnd (d + 1) cs
      else if c = ')' then 1 < d && closesAtEnd (d - 1) cs
      else closesAtEnd d cs := by
  obtain ⟨x, xs, rfl⟩ := List.exists_cons_of_ne_nil h
  rw [closesAtEnd]

theorem closesAtEnd_of_depthAfter {d e : Nat} {cs : List Char} (h : depthAfter d cs = some e) :
    closesAtEnd (d + 1) (cs ++ [')']) = true := by
  fun_induction depthAfter d cs with
  | case1 d => rfl
  | case2 d cs ih =>
    rw [List.cons_append, closesAtEnd_cons _ _ (by simp), if_pos rfl]
    exact ih h
  | case3 cs ho => cases h
  | case4 cs d ho ih =>
    rw [List.cons_append, closesAtEnd_cons _ _ (by simp), if_neg ho, if_pos rfl,
      Nat.add_sub_cancel, ih h]
    simp
  | case5 d c cs ho hc ih =>
    rw [List.cons_append, closesAtEnd_cons _ _ (by simp), if_neg ho, if_neg hc]
    exact ih h

/-- An innermost bracket that is closed before the end is not closed at it. -/
theorem closesAtEnd_append {d : Nat} {xs ys : List Char} (hd : 0 < d)
    (h : depthAfter d xs = some 0) (hy : ys ≠ []) : closesAtEnd d (xs ++ ys) = false := by
  fun_induction depthAfter d xs with
  | case1 d =>
    cases h
    omega
  | case2 d cs ih =>
    rw [List.cons_append, closesAtEnd_cons _ _ (by simp [hy]), if_pos rfl]
    exact ih (Nat.succ_pos d) h
  | case3 cs ho => cases h
  | case4 cs d ho ih =>
    rw [List.cons_append, closesAtEnd_cons _ _ (by simp [hy]), if_neg ho, if_pos rfl,
      Nat.succ_sub_one]
    rcases Nat.eq_zero_or_pos d with rfl | hd'
    · -- the last open bracket is closed here, and more text follows
      rfl
    · rw [ih hd' h, Bool.and_false]
  | case5 d c cs ho hc ih =>
    rw [List.cons_append, closesAtEnd_cons _ _ (by simp [hy]), if_neg ho, if_neg hc]
    exact ih hd h

theorem unwrap?_eq_some {cs inner : List Char} (h : unwrap? cs = some inner) :
    cs = '(' :: (inner ++ [')']) := by
  rcases cs with _ | ⟨c, cs⟩
  · cases h
  · rw [unwrap?] at h
    split at h
    · rename_i hc
      rw [Bool.and_eq_true, decide_eq_true_eq] at hc
      obtain ⟨rfl, hend⟩ := hc
      rw [Option.some_inj] at h
      -- the last character is the one that `closesAtEnd` looks at
      suffices ∀ d, closesAtEnd d cs = true → cs = cs.dropLast ++ [')'] by
        rw [← h, ← this 1 hend]
      clear h hend
      intro d
      induction cs generalizing d with
      | nil => exact fun h => absurd h (by simp [closesAtEnd])
      | cons x xs ih =>
        rcases xs with _ | ⟨y, ys⟩
        · intro h
          simpa [closesAtEnd] using h
        · intro h
          rw [closesAtEnd] at h
          rw [List.dropLast_cons_cons, List.cons_append]
          congr 1
          split at h
          · exact ih (d + 1) h
          · split at h
            · exact ih (d - 1) (by simp at h; exact h.2)
            · exact ih d h
    · simp at h

theorem unwrap?_wrap {cs : List Char} (h : Balanced cs) :
    unwrap? ('(' :: (cs ++ [')'])) = some cs := by
  rw [unwrap?, closesAtEnd_of_depthAfter h]
  simp

/-- A text that begins with a balanced part has no outer brackets that reach
over more than this part. -/
theorem unwrap?_append {xs ys : List Char} (hx : Balanced xs) (hne : xs ≠ []) (hy : ys ≠ []) :
    unwrap? (xs ++ ys) = none := by
  obtain ⟨c, xs, rfl⟩ := List.exists_cons_of_ne_nil hne
  rw [List.cons_append, unwrap?]
  by_cases hc : c = '('
  · subst hc
    rw [Balanced, depthAfter_open] at hx
    rw [closesAtEnd_append Nat.one_pos hx hy, Bool.and_false]
    rfl
  · simp [hc]

/-- What stands between the outer brackets of a balanced text is balanced. -/
theorem Balanced.unwrap {cs inner : List Char} (h : Balanced cs) (hcs : unwrap? cs = some inner) :
    Balanced inner := by
  have heq := unwrap?_eq_some hcs
  subst heq
  obtain ⟨ys, zs, heq, hys, -⟩ := h.exists_of_open
  rcases zs with _ | ⟨z, zs⟩
  · exact List.append_cancel_right heq ▸ hys
  · -- the first bracket would be closed before the end
    have hnone : unwrap? ('(' :: (ys ++ [')']) ++ z :: zs) = none :=
      unwrap?_append hys.wrap (by simp) (by simp)
    simp only [List.cons_append, List.append_assoc, List.nil_append] at hnone
    rw [heq, hnone] at hcs
    simp at hcs

theorem unwrap?_stripAll (start : Nat) (cs : List Char) :
    unwrap? (stripAll start cs).2 = none := by
  fun_induction stripAll start cs with
  | case1 start cs inner h ih => exact ih
  | case2 start cs h => exact h

/-! ### Pairs -/

/-- The positions of the brackets that are open behind a text, the innermost
first. -/
def openAfter : (pos : Nat) → (opened : List Nat) → List Char → List Nat
  | _, opened, [] => opened
  | pos, opened, '(' :: cs => openAfter (pos + 1) (pos :: opened) cs
  | pos, _ :: opened, ')' :: cs => openAfter (pos + 1) opened cs
  | pos, opened, _ :: cs => openAfter (pos + 1) opened cs

theorem bracketPairsFrom_append (pos : Nat) (opened : List Nat) (xs ys : List Char) :
    bracketPairsFrom pos opened (xs ++ ys) =
      bracketPairsFrom pos opened xs ++
        bracketPairsFrom (pos + xs.length) (openAfter pos opened xs) ys := by
  fun_induction openAfter pos opened xs with
  | case1 pos opened => rfl
  | case2 pos opened cs ih =>
    rw [List.cons_append, bracketPairsFrom, bracketPairsFrom, ih, List.length_cons]
    congr 2
    omega
  | case3 pos o opened cs ih =>
    rw [List.cons_append, bracketPairsFrom, bracketPairsFrom, ih, List.length_cons]
    rw [List.cons_append]
    congr 3
    omega
  | case4 pos opened c cs hopen hclose ih =>
    rw [List.cons_append, bracketPairsFrom.eq_4 _ _ _ _ hopen hclose,
      bracketPairsFrom.eq_4 _ _ _ _ hopen hclose, ih, List.length_cons]
    congr 2
    omega

/-- Brackets that are open before a text and not closed in it stay open. -/
theorem openAfter_append_opened {d e : Nat} {cs : List Char} (h : depthAfter d cs = some e)
    (pos : Nat) {news : List Nat} (hd : news.length = d) (opened : List Nat) :
    ∃ news', news'.length = e ∧ openAfter pos (news ++ opened) cs = news' ++ opened := by
  fun_induction depthAfter d cs generalizing pos news with
  | case1 d =>
    cases h
    exact ⟨news, hd, rfl⟩
  | case2 d cs ih =>
    rw [openAfter, ← List.cons_append]
    exact ih h (pos + 1) (by rw [List.length_cons, hd])
  | case3 cs ho => cases h
  | case4 cs d ho ih =>
    -- the bracket that is closed is a new one, so the old ones stay
    obtain ⟨o, news, rfl⟩ := List.exists_cons_of_length_eq_add_one hd
    rw [List.cons_append, openAfter]
    exact ih h (pos + 1) (Nat.succ.inj hd)
  | case5 d c cs ho hc ih =>
    rw [openAfter.eq_4 _ _ _ _ (fun e => ho e) (fun _ _ _ e => hc e)]
    exact ih h (pos + 1) hd

theorem Balanced.openAfter_eq {cs : List Char} (h : Balanced cs) (pos : Nat)
    (opened : List Nat) : openAfter pos opened cs = opened := by
  have hd : ([] : List Nat).length = 0 := rfl
  obtain ⟨news, hlen, heq⟩ := openAfter_append_opened h pos hd opened
  rw [List.length_eq_zero_iff.1 hlen] at heq
  exact heq

/-- The brackets around a balanced part of a text belong together. -/
theorem mem_bracketPairs {ys : List Char} (h : Balanced ys) (xs zs : List Char) :
    (xs.length, xs.length + 1 + ys.length) ∈
      bracketPairs (xs ++ '(' :: (ys ++ ')' :: zs)) := by
  rw [bracketPairs, bracketPairsFrom_append, Nat.zero_add]
  refine List.mem_append_right _ ?_
  -- the opening bracket is the innermost one again when its partner comes
  rw [bracketPairsFrom, bracketPairsFrom_append, h.openAfter_eq, bracketPairsFrom]
  exact List.mem_append_right _ List.mem_cons_self

theorem erasePair_wrap (xs ys zs : List Char) :
    erasePair (xs ++ '(' :: (ys ++ ')' :: zs)) (xs.length, xs.length + 1 + ys.length) =
      xs ++ (ys ++ zs) := by
  -- the bracket on the right goes first, so the position of the other one stays right
  have hclose : (xs ++ '(' :: (ys ++ ')' :: zs)).eraseIdx (xs.length + 1 + ys.length) =
      xs ++ '(' :: (ys ++ zs) := by
    rw [List.eraseIdx_append_of_length_le (by omega)]
    rw [show xs.length + 1 + ys.length - xs.length = ys.length + 1 by omega,
      List.eraseIdx_cons_succ, List.eraseIdx_append_of_length_le (Nat.le_refl _),
      Nat.sub_self, List.eraseIdx_cons_zero]
  rw [erasePair, hclose, List.eraseIdx_append_of_length_le (Nat.le_refl _), Nat.sub_self,
    List.eraseIdx_cons_zero]

end RegexAutomata.Text
