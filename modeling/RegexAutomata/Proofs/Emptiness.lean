/-
What can be seen of a language from a normal expression.

In a normal expression `∅` is the whole of it or nowhere, and `ε` is the whole
of it or stands beside some letter.  So a normal expression stands for the empty
set or for the empty string alone only if it is `∅` or `ε`
(`Normal.language_eq_zero_iff`, `Normal.language_eq_one_iff`), and every letter in
it occurs in some text of its language (`Normal.char_mem_leaves_iff`).

As the expression of an automaton is normal, its text tells whether the
automaton accepts anything, anything but the empty text, and which letters occur
in what it accepts (`eliminate_tells`).
-/
import RegexAutomata.Proofs.Conversion
import RegexAutomata.Proofs.Normal

namespace RegexAutomata

open Computability

namespace Regex

variable {t : SymbolTable} {e l r : Regex} {c : Char} {o : Operand} {w : List Char}

/-! ### The operands of an expression -/

/-- The operands of an expression, from left to right. -/
def leaves : Regex → List Operand
  | .operand o => [o]
  | .star e => e.leaves
  | .concat l r => l.leaves ++ r.leaves
  | .union l r => l.leaves ++ r.leaves

/-- The letters of a text are letters of the expression. -/
theorem char_mem_leaves (hw : w ∈ e.language) (hc : c ∈ w) : .char c ∈ e.leaves := by
  induction e generalizing w with
  | operand o =>
    cases o with
    | char d =>
      rw [show w = [d] from hw, List.mem_singleton] at hc
      rw [hc]
      exact List.mem_singleton_self _
    | emptyString =>
      rw [(Language.mem_one w).1 hw] at hc
      simp at hc
    | emptySet => exact absurd hw (Language.notMem_zero w)
  | star e ih =>
    -- the letter is in one of the repetitions
    obtain ⟨ws, rfl, hws⟩ := Language.mem_kstar.1 hw
    obtain ⟨v, hv, hcv⟩ := List.mem_flatten.1 hc
    exact ih (hws v hv) hcv
  | concat l r ihl ihr =>
    obtain ⟨u, hu, v, hv, rfl⟩ := Language.mem_mul.1 hw
    rcases List.mem_append.1 hc with hc | hc
    · exact List.mem_append_left _ (ihl hu hc)
    · exact List.mem_append_right _ (ihr hv hc)
  | union l r ihl ihr =>
    rcases hw with hw | hw
    · exact List.mem_append_left _ (ihl hw hc)
    · exact List.mem_append_right _ (ihr hw hc)

/-- Without `∅` there is a text. -/
theorem exists_mem_language (h : .emptySet ∉ e.leaves) : ∃ w, w ∈ e.language := by
  induction e with
  | operand o =>
    cases o with
    | char c => exact ⟨[c], rfl⟩
    | emptyString => exact ⟨[], rfl⟩
    | emptySet => exact absurd (List.mem_singleton_self _) h
  | star e _ => exact ⟨[], Language.nil_mem_kstar _⟩
  | concat l r ihl ihr =>
    obtain ⟨hl, hr⟩ := not_or.1 fun hor => h (List.mem_append.2 hor)
    obtain ⟨u, hu⟩ := ihl hl
    obtain ⟨v, hv⟩ := ihr hr
    exact ⟨u ++ v, Language.append_mem_mul hu hv⟩
  | union l r ihl _ =>
    obtain ⟨w, hw⟩ := ihl fun hl => h (List.mem_append_left _ hl)
    exact ⟨w, Or.inl hw⟩

/-- Without `∅` every letter of the expression is in some text. -/
theorem exists_mem_of_char_mem_leaves (h : .emptySet ∉ e.leaves) (hc : .char c ∈ e.leaves) :
    ∃ w ∈ e.language, c ∈ w := by
  induction e with
  | operand o =>
    obtain rfl := List.mem_singleton.1 hc
    exact ⟨[c], rfl, List.mem_singleton_self c⟩
  | star e ih =>
    obtain ⟨w, hw, hcw⟩ := ih h hc
    exact ⟨w, (le_kstar : e.language ≤ e.language∗) hw, hcw⟩
  | concat l r ihl ihr =>
    obtain ⟨hl, hr⟩ := not_or.1 fun hor => h (List.mem_append.2 hor)
    rcases List.mem_append.1 hc with hc | hc
    · obtain ⟨u, hu, hcu⟩ := ihl hl hc
      obtain ⟨v, hv⟩ := exists_mem_language hr
      exact ⟨u ++ v, Language.append_mem_mul hu hv, List.mem_append_left _ hcu⟩
    · obtain ⟨u, hu⟩ := exists_mem_language hl
      obtain ⟨v, hv, hcv⟩ := ihr hr hc
      exact ⟨u ++ v, Language.append_mem_mul hu hv, List.mem_append_right _ hcv⟩
  | union l r ihl ihr =>
    obtain ⟨hl, hr⟩ := not_or.1 fun hor => h (List.mem_append.2 hor)
    rcases List.mem_append.1 hc with hc | hc
    · obtain ⟨w, hw, hcw⟩ := ihl hl hc
      exact ⟨w, Or.inl hw, hcw⟩
    · obtain ⟨w, hw, hcw⟩ := ihr hr hc
      exact ⟨w, Or.inr hw, hcw⟩

/-! ### Normal expressions -/

/-- In a normal expression `∅` is the whole of it or nowhere. -/
theorem Normal.emptySet_not_mem_leaves (h : e.Normal) (hset : e ≠ emptySet) :
    .emptySet ∉ e.leaves := by
  induction h with
  | operand o =>
    intro ho
    rw [← List.mem_singleton.1 ho] at hset
    exact hset rfl
  | star _ hset' _ _ ih => exact ih hset'
  | concat _ _ hlset hrset _ _ ihl ihr | union _ _ hlset hrset _ _ _ ihl ihr =>
    rw [leaves, List.mem_append, not_or]
    exact ⟨ihl hlset, ihr hrset⟩

/-- In a normal expression other than `∅` and `ε` there is a letter. -/
theorem Normal.exists_char_mem_leaves (h : e.Normal) (hset : e ≠ emptySet)
    (hstring : e ≠ emptyString) : ∃ c, .char c ∈ e.leaves := by
  induction h with
  | operand o =>
    cases o with
    | char c => exact ⟨c, List.mem_singleton_self _⟩
    | emptyString => exact absurd rfl hstring
    | emptySet => exact absurd rfl hset
  | star _ hset' hstring' _ ih => exact ih hset' hstring'
  | concat _ _ hlset _ hlstring _ ihl _ =>
    obtain ⟨c, hc⟩ := ihl hlset hlstring
    exact ⟨c, List.mem_append_left _ hc⟩
  | @union l r _ _ hlset hrset hne _ _ ihl ihr =>
    -- the two sides differ, so one of them is not `ε`
    by_cases hl : l = emptyString
    · obtain ⟨c, hc⟩ := ihr hrset fun hr => hne (hl.trans hr.symm)
      exact ⟨c, List.mem_append_right _ hc⟩
    · obtain ⟨c, hc⟩ := ihl hlset hl
      exact ⟨c, List.mem_append_left _ hc⟩

theorem Normal.language_eq_zero_iff (h : e.Normal) : e.language = 0 ↔ e = emptySet := by
  constructor
  · intro h0
    by_contra hset
    obtain ⟨w, hw⟩ := exists_mem_language (h.emptySet_not_mem_leaves hset)
    rw [h0] at hw
    exact Language.notMem_zero w hw
  · rintro rfl
    rfl

theorem Normal.language_eq_one_iff (h : e.Normal) : e.language = 1 ↔ e = emptyString := by
  constructor
  · intro h1
    by_contra hstring
    have hset : e ≠ emptySet := by
      rintro rfl
      exact Language.notMem_zero [] (h1 ▸ (Language.mem_one []).2 rfl)
    obtain ⟨c, hc⟩ := h.exists_char_mem_leaves hset hstring
    obtain ⟨w, hw, hcw⟩ :=
      exists_mem_of_char_mem_leaves (h.emptySet_not_mem_leaves hset) hc
    rw [h1] at hw
    rw [(Language.mem_one w).1 hw] at hcw
    simp at hcw
  · rintro rfl
    rfl

theorem Normal.char_mem_leaves_iff (h : e.Normal) :
    .char c ∈ e.leaves ↔ ∃ w ∈ e.language, c ∈ w := by
  constructor
  · intro hc
    by_cases hset : e = emptySet
    · rw [hset, leaves, List.mem_singleton] at hc
      simp at hc
    · exact exists_mem_of_char_mem_leaves (h.emptySet_not_mem_leaves hset) hc
  · rintro ⟨w, hw, hcw⟩
    exact char_mem_leaves hw hcw

/-! ### The operands in what is written -/

/-- The character of an operand is written where the operand is, and nowhere
else. -/
theorem mem_placed_iff (he : e.WellFormed) (ho : Operand.ofChar? c = some o) (place : Nat) :
    c ∈ e.placed t place ↔ o ∈ e.leaves := by
  have hsymbol : ∀ op, c ≠ t.symbol op := by
    rintro op rfl
    rw [t.ofChar?_symbol] at ho
    simp at ho
  -- brackets make no difference
  have hplace : ∀ (e : Regex) place, c ∈ e.placed t place ↔ c ∈ e.placed t 0 := by
    intro e place
    by_cases hle : place ≤ e.strength
    · rw [placed_of_le hle]
    · rw [placed_of_lt (Nat.not_le.1 hle)]
      simp [Operand.ne_open_of_ofChar? ho, Operand.ne_close_of_ofChar? ho]
  induction e generalizing place with
  | operand o' =>
    rw [hplace, placed_operand, List.mem_singleton, leaves, List.mem_singleton]
    obtain ⟨hproper, rfl⟩ := Operand.ofChar?_eq_some_iff.1 ho
    constructor
    · intro h
      rw [h, Operand.ofChar?_toChar he, Option.some_inj] at ho
      exact ho.symm
    · rintro rfl
      rfl
  | star e ih =>
    rw [hplace, placed_star, List.mem_append, List.mem_singleton, leaves,
      or_iff_left (hsymbol .star)]
    exact ih he _
  | concat l r ihl ihr =>
    rw [hplace, placed_concat, List.mem_append, List.mem_cons, leaves, List.mem_append,
      or_iff_right (hsymbol .concat)]
    exact or_congr (ihl he.1 _) (ihr he.2 _)
  | union l r ihl ihr =>
    rw [hplace, placed_union, List.mem_append, List.mem_cons, leaves, List.mem_append,
      or_iff_right (hsymbol .union)]
    exact or_congr (ihl he.1 _) (ihr he.2 _)

theorem mem_display_iff (he : e.WellFormed) (ho : Operand.ofChar? c = some o) :
    c ∈ (e.display t).toList ↔ o ∈ e.leaves := by
  rw [display, String.toList_ofList]
  exact mem_placed_iff he ho 0

end Regex

namespace Automaton

variable {a : Automaton} {t : SymbolTable} {text : String}

/-! ### What an elimination writes -/

theorem exists_normal_of_finalRegex (htext : a.finalRegex t = .ok text) :
    ∃ e : Regex, e.Normal ∧ e.WellFormed ∧ writeLabel t e = .ok text := by
  obtain ⟨i, f, first, forth, back, second, -, -, hfirst, hforth, hback, hsecond, hwrite⟩ :=
    exists_of_finalRegex htext
  refine ⟨_, ?_, ?_, hwrite⟩
  · exact normal_throughTwo (normal_of_labelRegex hfirst) (normal_of_labelRegex hforth)
      (normal_of_labelRegex hback) (normal_of_labelRegex hsecond)
  · exact wellFormed_throughTwo (wellFormed_of_labelRegex hfirst)
      (wellFormed_of_labelRegex hforth) (wellFormed_of_labelRegex hback)
      (wellFormed_of_labelRegex hsecond)

/-- The text that an automaton is turned into spells a normal expression of its
language. -/
theorem exists_normal_of_eliminate (h : a.WellLinked) (htext : a.eliminate t = .ok text) :
    ∃ e : Regex, e.Normal ∧ e.WellFormed ∧ e.display t = text ∧ Regex.parse t text = .ok e ∧
      e.language = a.language t := by
  obtain ⟨e, hnormal, hwf, hwrite⟩ := of_eliminateWithin
    (fun _ => exists_normal_of_finalRegex) (fun _ _ _ _ _ hrest => hrest) htext
  obtain ⟨hdisplay, hparse⟩ := (writeLabel_eq_ok_iff hwf).1 hwrite
  obtain ⟨e', hparse', hlanguage⟩ := language_of_eliminate h htext
  -- the text spells one expression only
  rw [hparse] at hparse'
  cases hparse'
  exact ⟨e, hnormal, hwf, hdisplay, hparse, hlanguage⟩

/-! ### What the text tells -/

/-- **Emptiness can be seen.**  The text that an automaton is turned into is `∅`
just if nothing is accepted, and `ε` just if the empty text alone is accepted.
Otherwise there is no `∅` in it, and just those letters are in it that occur in
what is accepted. -/
theorem eliminate_tells (h : a.Reachable) (htext : a.eliminate t = .ok text) :
    (text = "∅" ↔ ∀ w, w ∉ a.language t) ∧
    (text = "ε" ↔ ∀ w, w ∈ a.language t ↔ w = []) ∧
    (text ≠ "∅" → '∅' ∉ text.toList) ∧
    ∀ c : Char, c.isAlphanum = true →
      (c ∈ text.toList ↔ ∃ w ∈ a.language t, c ∈ w) := by
  obtain ⟨e, hnormal, hwf, rfl, hparse, hlanguage⟩ :=
    exists_normal_of_eliminate h.wellLinked htext
  -- a text that is an operand spells this operand
  have hoperand : ∀ o : Operand, o.Proper → (e.display t = o.print ↔ e = .operand o) := by
    intro o ho
    constructor
    · intro hprint
      rw [hprint, parse_print t ho] at hparse
      exact (Except.ok.inj hparse).symm
    · rintro rfl
      exact Regex.display_operand t o
  refine ⟨?_, ?_, ?_, ?_⟩
  · rw [← hlanguage]
    calc
      e.display t = "∅" ↔ e = Regex.emptySet := hoperand .emptySet trivial
      _ ↔ e.language = 0 := hnormal.language_eq_zero_iff.symm
      _ ↔ ∀ w, w ∉ e.language := Set.eq_empty_iff_forall_notMem
  · rw [← hlanguage]
    calc
      e.display t = "ε" ↔ e = Regex.emptyString := hoperand .emptyString trivial
      _ ↔ e.language = 1 := hnormal.language_eq_one_iff.symm
      _ ↔ ∀ w, w ∈ e.language ↔ w = [] := Set.ext_iff
  · intro hne hmem
    rw [Regex.mem_display_iff hwf (o := .emptySet) rfl] at hmem
    refine hnormal.emptySet_not_mem_leaves (fun hset => hne ?_) hmem
    exact (hoperand .emptySet trivial).2 hset
  · intro c hc
    have hchar : Operand.ofChar? c = some (.char c) :=
      Operand.ofChar?_eq_some_iff.2 ⟨hc, rfl⟩
    rw [Regex.mem_display_iff hwf hchar, hnormal.char_mem_leaves_iff, hlanguage]

/-- A loop that reads nothing and two transitions that cannot be taken leave
nothing but `a|b`. -/
theorem eliminate_tells_letters :
    let a := (((ofRegex (.concat (.operand (.char 'a')) (.operand (.char 'b')))).connect 1 1
      "(ε+∅)*").connect 3 0 "c|∅").connect 0 3 "(∅)"
    a.Reachable ∧ a.eliminate .standard = .ok "a|b" ∧
      (∃ w ∈ a.language .standard, 'b' ∈ w) ∧ ¬ ∃ w ∈ a.language .standard, 'c' ∈ w := by
  intro a
  have h : a.Reachable :=
    (((Reachable.ofRegex (.concat (.operand (.char 'a')) (.operand (.char 'b')))).connect
      (by cbv) (by cbv)).connect (by cbv) (by cbv)).connect (by cbv) (by cbv)
  have heliminate : a.eliminate .standard = .ok "a|b" := by
    subst a
    cbv
  obtain ⟨-, -, -, hletters⟩ := eliminate_tells h heliminate
  refine ⟨h, heliminate, (hletters 'b' rfl).1 (by decide), fun hc => ?_⟩
  exact absurd ((hletters 'c' rfl).2 hc) (by decide)

end Automaton

end RegexAutomata
