/-
Expressions to which no law applies.

An expression is `Regex.Normal` if none of the laws by which expressions are
shortened applies anywhere in it.  The constructors that shorten on the way make
normal expressions of normal ones, so that shortening makes every expression
normal (`normal_normalize`); and it leaves a normal one as it is
(`Normal.normalize_eq`).

Hence whatever is read off a label is normal, and so is what is written around a
state or read off two states (`normal_of_labelRegex`, `normal_around`,
`normal_throughTwo`).
-/
import RegexAutomata.Proofs.Labels

namespace RegexAutomata

namespace Regex

variable {e l r closure : Regex}

/-- The expressions that take in the empty string: `x*`, `x x*` and `x* x`. -/
def TakesInEmpty (e : Regex) : Prop :=
  ∃ x, e = .star x ∨ e = .concat x (.star x) ∨ e = .concat (.star x) x

/-- No law applies anywhere in the expression. -/
inductive Normal : Regex → Prop
  /-- No law is about operands alone. -/
  | operand (o : Operand) : Normal (.operand o)
  /-- Not `∅*`, `ε*` or `e**`. -/
  | star {e : Regex} (h : Normal e) (hset : e ≠ emptySet) (hstring : e ≠ emptyString)
    (hstar : ∀ x, e ≠ .star x) : Normal (.star e)
  /-- Neither `∅` nor `ε` is followed by anything or follows anything. -/
  | concat {l r : Regex} (hl : Normal l) (hr : Normal r) (hlset : l ≠ emptySet)
    (hrset : r ≠ emptySet) (hlstring : l ≠ emptyString) (hrstring : r ≠ emptyString) :
    Normal (.concat l r)
  /-- No `∅`, no two alike, and no `ε` beside what takes it in. -/
  | union {l r : Regex} (hl : Normal l) (hr : Normal r) (hlset : l ≠ emptySet)
    (hrset : r ≠ emptySet) (hne : l ≠ r) (hlstring : l = emptyString → ¬ r.TakesInEmpty)
    (hrstring : r = emptyString → ¬ l.TakesInEmpty) : Normal (.union l r)

/-! ### Where no law applies, none is applied -/

theorem repeated_eq_star (hset : e ≠ emptySet) (hstring : e ≠ emptyString)
    (hstar : ∀ x, e ≠ .star x) : e.repeated = .star e := by
  rcases e with (c | _ | _) | e | ⟨l, r⟩ | ⟨l, r⟩
  · rfl
  · exact absurd rfl hstring
  · exact absurd rfl hset
  · exact absurd rfl (hstar e)
  · rfl
  · rfl

theorem followedBy_eq_concat (hlset : l ≠ emptySet) (hrset : r ≠ emptySet)
    (hlstring : l ≠ emptyString) (hrstring : r ≠ emptyString) :
    l.followedBy r = .concat l r := by
  rw [followedBy, if_neg (not_or.2 ⟨hlset, hrset⟩), if_neg hlstring, if_neg hrstring]

theorem closure?_eq_none_iff : e.closure? = none ↔ ¬ e.TakesInEmpty := by
  constructor
  · rintro h ⟨x, rfl | rfl | rfl⟩
    · simp [closure?] at h
    · simp [closure?] at h
    · rw [closure?] at h
      split at h
      · simp at h
      · simp at h
  · intro h
    rcases e with o | e | ⟨l, r⟩ | ⟨l, r⟩
    · rfl
    · exact absurd ⟨e, Or.inl rfl⟩ h
    · have hr : r ≠ .star l := fun hr => h ⟨l, Or.inr (Or.inl (by rw [hr]))⟩
      have hl : l ≠ .star r := fun hl => h ⟨r, Or.inr (Or.inr (by rw [hl]))⟩
      rw [closure?, if_neg hr, if_neg hl]
    · rfl

/-- Nothing beside `ε` takes it in. -/
theorem ite_closure?_eq_none_iff :
    (if l = emptyString then r.closure? else none) = none ↔
      (l = emptyString → ¬ r.TakesInEmpty) := by
  rw [← closure?_eq_none_iff]
  by_cases h : l = emptyString
  · rw [if_pos h]
    exact ⟨fun hr _ => hr, fun hr => hr h⟩
  · rw [if_neg h]
    exact ⟨fun _ hl => absurd hl h, fun _ => rfl⟩

theorem either_eq_union (hlset : l ≠ emptySet) (hrset : r ≠ emptySet) (hne : l ≠ r)
    (hlstring : l = emptyString → ¬ r.TakesInEmpty)
    (hrstring : r = emptyString → ¬ l.TakesInEmpty) : l.either r = .union l r := by
  rw [either, if_neg hlset, if_neg (not_or.2 ⟨hrset, hne⟩),
    ite_closure?_eq_none_iff.2 hlstring, ite_closure?_eq_none_iff.2 hrstring]

/-- A normal expression cannot be shortened. -/
theorem Normal.normalize_eq (h : e.Normal) : e.normalize = e := by
  induction h with
  | operand o => rfl
  | star _ hset hstring hstar ih => rw [normalize, ih, repeated_eq_star hset hstring hstar]
  | concat _ _ hlset hrset hlstring hrstring ihl ihr =>
    rw [normalize, ihl, ihr, followedBy_eq_concat hlset hrset hlstring hrstring]
  | union _ _ hlset hrset hne hlstring hrstring ihl ihr =>
    rw [normalize, ihl, ihr, either_eq_union hlset hrset hne hlstring hrstring]

/-! ### Shortening makes normal expressions -/

theorem Normal.repeated (h : e.Normal) : e.repeated.Normal := by
  rcases e with (c | _ | _) | e | ⟨l, r⟩ | ⟨l, r⟩
  · exact .star h (by simp) (by simp) (by simp)
  · exact h
  · exact .operand _
  · exact h
  · exact .star h (by simp) (by simp) (by simp)
  · exact .star h (by simp) (by simp) (by simp)

theorem Normal.followedBy (hl : l.Normal) (hr : r.Normal) : (l.followedBy r).Normal := by
  unfold Regex.followedBy
  split
  · exact .operand _
  · rename_i hset
    obtain ⟨hlset, hrset⟩ := not_or.1 hset
    split
    · exact hr
    · split
      · exact hl
      · exact .concat hl hr hlset hrset ‹_› ‹_›

/-- The closure is a part of the expression. -/
theorem Normal.closure? (h : e.Normal) (hclosure : e.closure? = some closure) :
    closure.Normal := by
  unfold Regex.closure? at hclosure
  split at hclosure
  · cases hclosure
    exact h
  · cases h with
    | concat hl hr =>
      split at hclosure
      · cases hclosure
        exact hr
      · split at hclosure
        · cases hclosure
          exact hl
        · simp at hclosure
  · simp at hclosure

theorem Normal.either (hl : l.Normal) (hr : r.Normal) : (l.either r).Normal := by
  unfold Regex.either
  split
  · exact hr
  · rename_i hlset
    split
    · exact hl
    · rename_i hset
      obtain ⟨hrset, hne⟩ := not_or.1 hset
      split
      · rename_i e h
        split at h
        · exact hr.closure? h
        · simp at h
      · rename_i hnone
        split
        · rename_i e h
          split at h
          · exact hl.closure? h
          · simp at h
        · rename_i hnone'
          exact .union hl hr hlset hrset hne (ite_closure?_eq_none_iff.1 hnone)
            (ite_closure?_eq_none_iff.1 hnone')

/-- Shortening leaves nothing to be shortened. -/
theorem normal_normalize (e : Regex) : e.normalize.Normal := by
  induction e with
  | operand o => exact .operand o
  | star e ih => exact ih.repeated
  | concat l r ihl ihr => exact ihl.followedBy ihr
  | union l r ihl ihr => exact ihl.either ihr

end Regex

namespace Automaton

open Regex (Normal)

variable {a : Automaton} {t : SymbolTable} {p q : State} {e : Regex}

/-! ### Labels that are read -/

theorem normal_of_labelRegex (h : a.labelRegex t p q = .ok e) : e.Normal := by
  rw [labelRegex] at h
  split at h
  · obtain ⟨e', -, rfl⟩ := readLabel_eq_ok_iff.1 h
    exact Regex.normal_normalize e'
  · cases h
    exact .operand _

theorem normal_around {direct into loop out : Regex} (hd : direct.Normal) (hi : into.Normal)
    (hl : loop.Normal) (ho : out.Normal) : (around direct into loop out).Normal :=
  hd.either ((hi.followedBy hl.repeated).followedBy ho)

theorem normal_throughTwo {first forth back second : Regex} (hf : first.Normal)
    (hforth : forth.Normal) (hb : back.Normal) (hs : second.Normal) :
    (throughTwo first forth back second).Normal :=
  (hf.repeated.followedBy hforth).followedBy
    (hs.either ((hb.followedBy hf.repeated).followedBy hforth)).repeated

end Automaton

end RegexAutomata
