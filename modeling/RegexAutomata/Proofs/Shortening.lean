/-
What shortening makes of an expression.

Shortening takes out every place where a law applies: an expression is normal just
if none of its parts is a `Redex` (`normal_iff`).  It never asks for more room: what
it makes of an expression is no deeper, and no longer wherever it is written
(`noLarger_normalize`).  For the length it matters where a part stands, because one
that moves up into the place of the whole may get brackets there; but where it
binds too loosely for the place of the whole, it has had them before
(`noLarger_of_mem_children`).

So an expression that could be read can be written again when it has been shortened
(`normalize_shortens`).
-/
import RegexAutomata.Proofs.Emptiness

namespace RegexAutomata.Regex

variable {t : SymbolTable} {e d c l r l' r' closure : Regex} {text : String}

/-! ### Where a law applies -/

/-- A law applies at the root: to a repetition of `∅`, of `ε` or of a repetition; to a
concatenation with `∅` or `ε`; and to a union with `∅`, of two alike, or of `ε` and
something that takes it in. -/
def Redex : Regex → Prop
  | .operand _ => False
  | .star e => e = emptySet ∨ e = emptyString ∨ ∃ x, e = .star x
  | .concat l r => (l = emptySet ∨ r = emptySet) ∨ l = emptyString ∨ r = emptyString
  | .union l r => (l = emptySet ∨ r = emptySet) ∨ l = r ∨
      (l = emptyString ∧ r.TakesInEmpty) ∨ (r = emptyString ∧ l.TakesInEmpty)

/-- The expression occurs in another one. -/
inductive Occurs (d : Regex) : Regex → Prop
  /-- As the whole of it. -/
  | whole : Occurs d d
  /-- In a part of it. -/
  | part {c e : Regex} (hc : c ∈ e.children) (h : Occurs d c) : Occurs d e

/-- In a normal expression there is no place where a law applies. -/
theorem Normal.not_redex (h : e.Normal) : ¬ e.Redex := by
  intro hredex
  cases h with
  | operand o => exact hredex
  | star _ hset hstring hstar =>
    obtain h | h | ⟨x, h⟩ := hredex
    · exact hset h
    · exact hstring h
    · exact hstar x h
  | concat _ _ hlset hrset hlstring hrstring =>
    obtain (h | h) | h | h := hredex
    · exact hlset h
    · exact hrset h
    · exact hlstring h
    · exact hrstring h
  | union _ _ hlset hrset hne hlstring hrstring =>
    obtain (h | h) | h | ⟨h, htakes⟩ | ⟨h, htakes⟩ := hredex
    · exact hlset h
    · exact hrset h
    · exact hne h
    · exact hlstring h htakes
    · exact hrstring h htakes

theorem Normal.of_mem_children (h : e.Normal) (hc : c ∈ e.children) : c.Normal := by
  cases h with
  | operand o => simp [children] at hc
  | star he =>
    rw [children, List.mem_singleton] at hc
    exact hc ▸ he
  | concat hl hr | union hl hr =>
    rw [children, List.mem_pair] at hc
    obtain rfl | rfl := hc
    · exact hl
    · exact hr

/-- Where no law applies to a part nor at the root, the expression is normal. -/
theorem normal_of_not_redex (hredex : ¬ e.Redex) (h : ∀ c ∈ e.children, c.Normal) :
    e.Normal := by
  cases e with
  | operand o => exact .operand o
  | star e =>
    obtain ⟨hset, hstring, hstar⟩ := not_or.1 hredex |>.imp_right not_or.1
    exact .star (h e (by simp [children])) hset hstring fun x hx => hstar ⟨x, hx⟩
  | concat l r =>
    obtain ⟨hset, hstring⟩ := not_or.1 hredex |>.imp not_or.1 not_or.1
    exact .concat (h l (by simp [children])) (h r (by simp [children])) hset.1 hset.2
      hstring.1 hstring.2
  | union l r =>
    obtain ⟨hset, hrest⟩ := not_or.1 hredex |>.imp not_or.1 not_or.1
    obtain ⟨hne, hl, hr⟩ := hrest.imp_right not_or.1
    exact .union (h l (by simp [children])) (h r (by simp [children])) hset.1 hset.2 hne
      (fun hlstring htakes => hl ⟨hlstring, htakes⟩) fun hrstring htakes => hr ⟨hrstring, htakes⟩

/-- An expression is normal just if there is no place in it where a law applies. -/
theorem normal_iff : e.Normal ↔ ∀ d, Occurs d e → ¬ d.Redex := by
  constructor
  · intro h d hd
    induction hd with
    | whole => exact h.not_redex
    | part hc _ ih => exact ih (h.of_mem_children hc)
  · intro h
    induction e with
    | operand o => exact .operand o
    | star e ih =>
      refine normal_of_not_redex (h _ .whole) fun c hc => ?_
      rw [children, List.mem_singleton] at hc
      subst hc
      exact ih fun d hd => h d (.part (by simp [children]) hd)
    | concat l r ihl ihr | union l r ihl ihr =>
      refine normal_of_not_redex (h _ .whole) fun c hc => ?_
      rw [children, List.mem_pair] at hc
      obtain rfl | rfl := hc
      · exact ihl fun d hd => h d (.part (by simp [children]) hd)
      · exact ihr fun d hd => h d (.part (by simp [children]) hd)

/-! ### Room -/

theorem strength_le (e : Regex) : e.strength ≤ 3 := by
  cases e <;> simp [strength, Operator.strength]

theorem length_placed_pos (t : SymbolTable) (e : Regex) : 0 < (e.placed t 0).length := by
  cases e with
  | operand o =>
    rw [length_placed_operand]
    omega
  | star e =>
    rw [length_placed_star]
    omega
  | concat l r =>
    rw [length_placed_concat]
    omega
  | union l r =>
    rw [length_placed_union]
    omega

/-- The expression asks for no more room than another one: it is no deeper, and wherever it
takes the place of the other one it is no longer. -/
structure NoLarger (t : SymbolTable) (e d : Regex) : Prop where
  depth : e.depth ≤ d.depth
  length : ∀ place, (e.placed t place).length ≤ (d.placed t place).length

namespace NoLarger

theorem refl (e : Regex) : NoLarger t e e := ⟨Nat.le_refl _, fun _ => Nat.le_refl _⟩

theorem trans (h : NoLarger t e d) (h' : NoLarger t d c) : NoLarger t e c :=
  ⟨Nat.le_trans h.depth h'.depth, fun place => Nat.le_trans (h.length place) (h'.length place)⟩

/-- Nothing is smaller than an operand. -/
theorem operand (o : Operand) (e : Regex) : NoLarger t (.operand o) e where
  depth := Nat.zero_le _
  length place := by
    have hpos := length_placed_pos t e
    have hstrength := strength_le e
    rw [length_placed, length_placed e, length_placed_operand]
    show 1 + (if 3 < place then 2 else 0) ≤ _
    split <;> split <;> omega

/-- Where both get brackets in the same places, it is enough to compare what is between
them. -/
theorem of_strength (hstrength : e.strength = d.strength) (hdepth : e.depth ≤ d.depth)
    (hlen : (e.placed t 0).length ≤ (d.placed t 0).length) : NoLarger t e d where
  depth := hdepth
  length place := by
    rw [length_placed, length_placed d, hstrength]
    omega

theorem star (h : NoLarger t e d) : NoLarger t (.star e) (.star d) := by
  have hdepth := h.depth
  have hlen := h.length Operator.star.strength
  refine of_strength rfl ?_ ?_
  · rw [Regex.depth, Regex.depth]
    omega
  · rw [length_placed_star, length_placed_star]
    omega

theorem concat (hl : NoLarger t l l') (hr : NoLarger t r r') :
    NoLarger t (.concat l r) (.concat l' r') := by
  have hdepth := And.intro hl.depth hr.depth
  have hleft := hl.length Operator.concat.strength
  have hright := hr.length (Operator.concat.strength + 1)
  refine of_strength rfl ?_ ?_
  · rw [Regex.depth, Regex.depth]
    omega
  · rw [length_placed_concat, length_placed_concat]
    omega

theorem union (hl : NoLarger t l l') (hr : NoLarger t r r') :
    NoLarger t (.union l r) (.union l' r') := by
  have hdepth := And.intro hl.depth hr.depth
  have hleft := hl.length Operator.union.strength
  have hright := hr.length (Operator.union.strength + 1)
  refine of_strength rfl ?_ ?_
  · rw [Regex.depth, Regex.depth]
    omega
  · rw [length_placed_union, length_placed_union]
    omega

/-- A part whose own place asks for no less than the whole has keeps in the place of the whole
the brackets that it had, or gets those that the whole had. -/
theorem of_placed (place : Nat) (hplace : e.strength ≤ place) (hdepth : c.depth ≤ e.depth)
    (hlen : (c.placed t place).length ≤ (e.placed t 0).length) : NoLarger t c e where
  depth := hdepth
  length other := by
    rw [length_placed] at hlen
    rw [length_placed, length_placed e]
    split at hlen <;> split <;> split <;> omega

end NoLarger

/-- A part asks for no more room than the whole, even in the place of the whole. -/
theorem noLarger_of_mem_children (t : SymbolTable) (hc : c ∈ e.children) : NoLarger t c e := by
  have hdepth := Nat.le_of_lt (depth_lt_of_mem_children hc)
  cases e with
  | operand o => simp [children] at hc
  | star e =>
    rw [children, List.mem_singleton] at hc
    subst hc
    refine .of_placed Operator.star.strength (Nat.le_refl _) hdepth ?_
    rw [length_placed_star]
    omega
  | concat l r =>
    rw [children, List.mem_pair] at hc
    obtain rfl | rfl := hc
    · refine .of_placed Operator.concat.strength (Nat.le_refl _) hdepth ?_
      rw [length_placed_concat]
      omega
    · refine .of_placed (Operator.concat.strength + 1) (Nat.le_succ _) hdepth ?_
      rw [length_placed_concat]
      omega
  | union l r =>
    rw [children, List.mem_pair] at hc
    obtain rfl | rfl := hc
    · refine .of_placed Operator.union.strength (Nat.le_refl _) hdepth ?_
      rw [length_placed_union]
      omega
    · refine .of_placed (Operator.union.strength + 1) (Nat.le_succ _) hdepth ?_
      rw [length_placed_union]
      omega

/-! ### Shortening asks for no more room -/

theorem noLarger_repeated (t : SymbolTable) (e : Regex) : NoLarger t e.repeated (.star e) := by
  rcases e with (a | _ | _) | e | ⟨l, r⟩ | ⟨l, r⟩
  · exact .refl _
  · exact .operand _ _
  · exact .operand _ _
  · exact noLarger_of_mem_children t (List.mem_singleton_self (star e))
  · exact .refl _
  · exact .refl _

theorem noLarger_followedBy (t : SymbolTable) (l r : Regex) :
    NoLarger t (l.followedBy r) (.concat l r) := by
  unfold followedBy
  split
  · exact .operand _ _
  · split
    · exact noLarger_of_mem_children t (by simp [children])
    · split
      · exact noLarger_of_mem_children t (by simp [children])
      · exact .refl _

/-- The repetition that takes in the empty string is the expression or a part of it. -/
theorem noLarger_closure? (t : SymbolTable) (h : e.closure? = some closure) :
    NoLarger t closure e := by
  unfold closure? at h
  split at h
  · cases h
    exact .refl _
  · split at h
    · cases h
      exact noLarger_of_mem_children t (by simp [children])
    · split at h
      · cases h
        exact noLarger_of_mem_children t (by simp [children])
      · simp at h
  · simp at h

theorem noLarger_either (t : SymbolTable) (l r : Regex) :
    NoLarger t (l.either r) (.union l r) := by
  have hl : NoLarger t l (.union l r) := noLarger_of_mem_children t (by simp [children])
  have hr : NoLarger t r (.union l r) := noLarger_of_mem_children t (by simp [children])
  unfold either
  split
  · exact hr
  · split
    · exact hl
    · split
      · rename_i closure h
        split at h
        · exact (noLarger_closure? t h).trans hr
        · simp at h
      · split
        · rename_i closure h
          split at h
          · exact (noLarger_closure? t h).trans hl
          · simp at h
        · exact .refl _

/-- Shortening asks for no more room. -/
theorem noLarger_normalize (t : SymbolTable) (e : Regex) : NoLarger t e.normalize e := by
  induction e with
  | operand o => exact .refl _
  | star e ih => exact (noLarger_repeated t _).trans ih.star
  | concat l r ihl ihr => exact (noLarger_followedBy t _ _).trans (ihl.concat ihr)
  | union l r ihl ihr => exact (noLarger_either t _ _).trans (ihl.union ihr)

theorem length_display_normalize_le (t : SymbolTable) (e : Regex) :
    (e.normalize.display t).length ≤ (e.display t).length := by
  have h := (noLarger_normalize t e).length 0
  rwa [display, display, String.length_ofList, String.length_ofList]

/-- A text that is read is at least as long as what is written for the shortened
expression. -/
theorem length_display_le_of_parse (h : parse t text = .ok e) :
    (e.display t).length ≤ text.length := by
  have hle := (parse_eq_ok_iff.1 h).2.1.placed_le.1
  rwa [display, String.length_ofList, ← String.length_toList]

/-- What was read can be written, and read again, when it has been shortened. -/
theorem parse_display_normalize (h : parse t text = .ok e) :
    parse t (e.normalize.display t) = .ok e.normalize := by
  obtain ⟨hlen, hd, hdepth⟩ := parse_eq_ok_iff.1 h
  refine parse_display hd.wellFormed.normalize t ?_ ?_
  · have hshort := length_display_normalize_le t e
    have htext := length_display_le_of_parse h
    omega
  · exact Nat.le_trans (noLarger_normalize t e).depth hdepth

/-- **Shortening does what it says.**  It keeps the language, leaves nothing to be shortened,
neither at the root nor in any part, and makes an expression neither deeper nor longer; so
what is made of an expression that was read keeps to the limits of reading. -/
theorem normalize_shortens (e : Regex) :
    e.normalize.language = e.language ∧
    e.normalize.normalize = e.normalize ∧
    (∀ d, Occurs d e.normalize → ¬ d.Redex) ∧
    (.emptySet ∈ e.normalize.leaves → e.normalize = emptySet) ∧
    e.normalize.depth ≤ e.depth ∧
    (∀ t, (e.normalize.display t).length ≤ (e.display t).length) ∧
    ∀ t text, parse t text = .ok e →
      (e.normalize.display t).length ≤ text.length ∧
        parse t (e.normalize.display t) = .ok e.normalize := by
  have hnormal := normal_normalize e
  refine ⟨language_normalize e, hnormal.normalize_eq, normal_iff.1 hnormal, ?_,
    (noLarger_normalize .standard e).depth, fun t => length_display_normalize_le t e,
    fun t text h => ⟨?_, parse_display_normalize h⟩⟩
  · intro hmem
    by_contra hne
    exact hnormal.emptySet_not_mem_leaves hne hmem
  · exact Nat.le_trans (length_display_normalize_le t e) (length_display_le_of_parse h)

end RegexAutomata.Regex
