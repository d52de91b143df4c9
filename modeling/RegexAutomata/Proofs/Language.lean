/-
The language of an expression, and the laws that keep it.

`Regex.language e` is the set of texts that an expression stands for.  The
constructors that shorten an expression on the way build the language of the
plain ones (`language_repeated`, `language_followedBy`, `language_either`), so
that `Regex.normalize` keeps it (`language_normalize`).  They also make no new
operands, so that a well-formed expression stays well-formed.
-/
import Mathlib.Computability.Language
import RegexAutomata.Proofs.Characters
import RegexAutomata.Regex.Normal

namespace RegexAutomata

open Computability

/-- The texts that an operand stands for. -/
def Operand.language : Operand → Language Char
  | .char c => {[c]}
  | .emptyString => 1
  | .emptySet => 0

namespace Regex

/-- The texts that an expression stands for. -/
def language : Regex → Language Char
  | .operand o => o.language
  | .star e => e.language∗
  | .concat l r => l.language * r.language
  | .union l r => l.language + r.language

@[simp] theorem language_emptyString : emptyString.language = 1 := rfl

@[simp] theorem language_emptySet : emptySet.language = 0 := rfl

@[simp] theorem language_star (e : Regex) : (star e).language = e.language∗ := rfl

@[simp] theorem language_concat (l r : Regex) :
    (concat l r).language = l.language * r.language := rfl

@[simp] theorem language_union (l r : Regex) :
    (union l r).language = l.language + r.language := rfl

/-! ### Shortening keeps the language -/

theorem language_repeated (e : Regex) : e.repeated.language = e.language∗ := by
  rcases e with (c | _ | _) | e | ⟨l, r⟩ | ⟨l, r⟩
  · rfl
  · exact kstar_one.symm
  · exact kstar_zero.symm
  · exact (kstar_idem _).symm
  · rfl
  · rfl

theorem language_followedBy (l r : Regex) :
    (l.followedBy r).language = l.language * r.language := by
  unfold followedBy
  split
  · rename_i h
    rcases h with rfl | rfl
    · rw [language_emptySet, zero_mul]
    · rw [language_emptySet, mul_zero]
  · split
    · rename_i h
      rw [h, language_emptyString, one_mul]
    · split
      · rename_i h
        rw [h, language_emptyString, mul_one]
      · rfl

/-- Adding the empty string to what has a closure gives the closure. -/
theorem language_closure? {e closure : Regex} (h : e.closure? = some closure) :
    closure.language = 1 + e.language := by
  unfold closure? at h
  split at h
  · cases h
    exact (add_eq_right_iff_le.2 one_le_kstar).symm
  · rename_i l r
    split at h
    · rename_i hr
      cases h
      rw [hr, language_concat, language_star]
      exact one_add_mul_kstar.symm
    · split at h
      · rename_i hl
        cases h
        rw [hl, language_concat, language_star]
        exact one_add_kstar_mul.symm
      · simp at h
  · simp at h

theorem language_either (l r : Regex) : (l.either r).language = l.language + r.language := by
  unfold either
  split
  · rename_i hl
    rw [hl, language_emptySet, zero_add]
  · split
    · rename_i h
      rcases h with rfl | rfl
      · rw [language_emptySet, add_zero]
      · exact (add_idem _).symm
    · split
      · rename_i e h
        split at h
        · rename_i hl
          rw [hl, language_closure? h, language_emptyString]
        · simp at h
      · split
        · rename_i e h
          split at h
          · rename_i hr
            rw [hr, language_closure? h, language_emptyString, add_comm]
          · simp at h
        · rfl

/-- Shortening an expression keeps its language. -/
theorem language_normalize (e : Regex) : e.normalize.language = e.language := by
  induction e with
  | operand o => rfl
  | star e ih => rw [normalize, language_repeated, ih, language_star]
  | concat l r ihl ihr => rw [normalize, language_followedBy, ihl, ihr, language_concat]
  | union l r ihl ihr => rw [normalize, language_either, ihl, ihr, language_union]

/-! ### Shortening makes no new operands -/

theorem WellFormed.repeated {e : Regex} (h : e.WellFormed) : e.repeated.WellFormed := by
  rcases e with (c | _ | _) | e | ⟨l, r⟩ | ⟨l, r⟩
  · exact h
  · exact trivial
  · exact trivial
  · exact h
  · exact h
  · exact h

theorem WellFormed.followedBy {l r : Regex} (hl : l.WellFormed) (hr : r.WellFormed) :
    (l.followedBy r).WellFormed := by
  unfold Regex.followedBy
  split
  · exact trivial
  · split
    · exact hr
    · split
      · exact hl
      · exact ⟨hl, hr⟩

theorem WellFormed.closure? {e closure : Regex} (he : e.WellFormed)
    (h : e.closure? = some closure) : closure.WellFormed := by
  unfold Regex.closure? at h
  split at h
  · cases h
    exact he
  · split at h
    · cases h
      exact he.2
    · split at h
      · cases h
        exact he.1
      · simp at h
  · simp at h

theorem WellFormed.either {l r : Regex} (hl : l.WellFormed) (hr : r.WellFormed) :
    (l.either r).WellFormed := by
  unfold Regex.either
  split
  · exact hr
  · split
    · exact hl
    · split
      · rename_i e h
        split at h
        · exact hr.closure? h
        · simp at h
      · split
        · rename_i e h
          split at h
          · exact hl.closure? h
          · simp at h
        · exact ⟨hl, hr⟩

theorem WellFormed.normalize {e : Regex} (h : e.WellFormed) : e.normalize.WellFormed := by
  induction e with
  | operand o => exact h
  | star e ih => exact (ih h).repeated
  | concat l r ihl ihr => exact (ihl h.1).followedBy (ihr h.2)
  | union l r ihl ihr => exact (ihl h.1).either (ihr h.2)

end Regex

end RegexAutomata
