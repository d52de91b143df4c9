/-
Labels that are read, and labels that are written.

An expression that is read off a label is well-formed and stands for what the
label stands for (`language_of_readLabel`); an expression that is written down
can be read again (`parse_of_writeLabel`), and the text is the one that taking
out needless brackets would leave (`writeLabel_eq_simplify`).

The transitions that are written while a state is eliminated are described by
`Detour`: there is one for each predecessor and each successor of the state,
in this order (`forall₂_rewritesAround`).  They fail only because of a label that
is consulted, or of an expression that is put together and not written
(`cases_of_rewritesAround_eq_error`); so where all labels can be read, there is no
other way to fail than that such an expression is too long or too deep to be written
(`error_of_rewritesAround`).
-/
import Mathlib.Data.List.Forall2
import Mathlib.Data.List.ProdSigma
import RegexAutomata.Elimination
import RegexAutomata.Proofs.Language
import RegexAutomata.Proofs.Simplification

namespace RegexAutomata

/-! ### Outcomes -/

section Outcomes

variable {ε α β : Type}

theorem bind_eq_ok_iff {x : Except ε α} {f : α → Except ε β} {b : β} :
    (x >>= f) = .ok b ↔ ∃ a, x = .ok a ∧ f a = .ok b := by
  rcases x with e | a
  · constructor
    · intro h
      cases h
    · rintro ⟨a, h, -⟩
      simp at h
  · constructor
    · intro h
      exact ⟨a, rfl, h⟩
    · rintro ⟨a', h, hf⟩
      cases h
      exact hf

theorem bind_eq_error_iff {x : Except ε α} {f : α → Except ε β} {e : ε} :
    (x >>= f) = .error e ↔ x = .error e ∨ ∃ a, x = .ok a ∧ f a = .error e := by
  rcases x with e' | a
  · constructor
    · intro h
      cases h
      exact Or.inl rfl
    · rintro (h | ⟨a, h, -⟩)
      · cases h
        rfl
      · simp at h
  · constructor
    · intro h
      exact Or.inr ⟨a, rfl, h⟩
    · rintro (h | ⟨a', h, hf⟩)
      · simp at h
      · cases h
        exact hf

theorem forall₂_of_mapM {f : α → Except ε β} {xs : List α} {ys : List β}
    (h : xs.mapM f = .ok ys) : List.Forall₂ (fun x y => f x = .ok y) xs ys := by
  induction xs generalizing ys with
  | nil =>
    cases h
    exact .nil
  | cons x xs ih =>
    rw [List.mapM_cons, bind_eq_ok_iff] at h
    obtain ⟨y, hy, h⟩ := h
    obtain ⟨ys', hys, h⟩ := bind_eq_ok_iff.1 h
    cases h
    exact .cons hy (ih hys)

theorem exists_mem_of_mapM_eq_error {f : α → Except ε β} {xs : List α} {e : ε}
    (h : xs.mapM f = .error e) : ∃ x ∈ xs, f x = .error e := by
  induction xs with
  | nil => cases h
  | cons x xs ih =>
    rw [List.mapM_cons, bind_eq_error_iff] at h
    rcases h with h | ⟨y, -, h⟩
    · exact ⟨x, List.mem_cons_self, h⟩
    · rcases bind_eq_error_iff.1 h with h | ⟨ys, -, h⟩
      · obtain ⟨x', hx', hf⟩ := ih h
        exact ⟨x', List.mem_cons_of_mem x hx', hf⟩
      · cases h

/-- Functions that agree on the members of a list give the same outcome on it. -/
theorem mapM_congr {f g : α → Except ε β} {xs : List α} (h : ∀ x ∈ xs, f x = g x) :
    xs.mapM f = xs.mapM g := by
  induction xs with
  | nil => rfl
  | cons x xs ih =>
    obtain ⟨hx, hxs⟩ := List.forall_mem_cons.1 h
    rw [List.mapM_cons, List.mapM_cons, hx, ih hxs]

theorem exists_mem_left_of_forall₂ {R : α → β → Prop} {xs : List α} {ys : List β}
    (h : List.Forall₂ R xs ys) {y : β} (hy : y ∈ ys) : ∃ x ∈ xs, R x y := by
  induction h with
  | nil => cases hy
  | cons hr _ ih =>
    rcases List.mem_cons.1 hy with rfl | hy
    · exact ⟨_, List.mem_cons_self, hr⟩
    · obtain ⟨x, hx, hr⟩ := ih hy
      exact ⟨x, List.mem_cons_of_mem _ hx, hr⟩

theorem exists_mem_right_of_forall₂ {R : α → β → Prop} {xs : List α} {ys : List β}
    (h : List.Forall₂ R xs ys) {x : α} (hx : x ∈ xs) : ∃ y ∈ ys, R x y :=
  exists_mem_left_of_forall₂ h.flip hx

end Outcomes

/-- The expression keeps to both limits when it is written. -/
def Regex.Writable (t : SymbolTable) (e : Regex) : Prop :=
  (e.display t).length ≤ maxLength ∧ e.depth ≤ maxDepth

instance (t : SymbolTable) (e : Regex) : Decidable (e.Writable t) :=
  inferInstanceAs (Decidable (_ ∧ _))

theorem Regex.writable_operand (t : SymbolTable) (o : Operand) :
    (Regex.operand o).Writable t := by
  refine ⟨?_, Nat.zero_le _⟩
  rw [display_operand, Operand.print]
  simp [maxLength]

namespace Automaton

variable {a : Automaton} {t : SymbolTable} {p q r : State} {e : Regex} {text : String}

/-! ### Reading and writing -/

/-- What is answered to an expression that exceeds a limit, the one on the length
first. -/
def limitError (t : SymbolTable) (e : Regex) : EliminationError :=
  .label (e.display t)
    (if maxLength < (e.display t).length then .tooLong (e.display t).length else .tooDeep)

theorem readLabel_eq_ok_iff :
    readLabel t text = .ok e ↔ ∃ e', Regex.parse t text = .ok e' ∧ e = e'.normalize := by
  rw [readLabel]
  rcases Regex.parse t text with cause | e'
  · simp
  · constructor
    · intro h
      cases h
      exact ⟨e', rfl, rfl⟩
    · rintro ⟨_, h, rfl⟩
      cases h
      rfl

theorem wellFormed_of_parse (h : Regex.parse t text = .ok e) : e.WellFormed :=
  (Regex.parse_eq_ok_iff.1 h).2.1.wellFormed

/-- What is written can be read again. -/
theorem writeLabel_eq_ok_iff (he : e.WellFormed) :
    writeLabel t e = .ok text ↔ e.display t = text ∧ Regex.parse t text = .ok e := by
  -- whatever the written text is read as has the same derivation
  have hparse : ∀ e', Regex.parse t (e.display t) = .ok e' → e' = e := fun e' h =>
    (Regex.parse_eq_ok_iff.1 h).2.1.unique (Regex.derives_display he t)
  rw [writeLabel]
  rcases h : Regex.parse t (e.display t) with cause | e'
  · constructor
    · intro h'
      cases h'
    · rintro ⟨rfl, h'⟩
      rw [h] at h'
      cases h'
  · cases hparse e' h
    constructor
    · intro h'
      cases h'
      exact ⟨rfl, h⟩
    · rintro ⟨rfl, -⟩
      rfl

/-- A well-formed expression is written if it keeps to the limits. -/
theorem writeLabel_eq (he : e.WellFormed) :
    writeLabel t e = if e.Writable t then .ok (e.display t) else .error (limitError t e) := by
  have hd := (Regex.derives_display he t).parseChars_eq
  rw [String.length_toList] at hd
  rw [writeLabel, Regex.parse, hd, limitError]
  by_cases hlen : maxLength < (e.display t).length
  · rw [if_pos hlen, if_neg fun hw : e.Writable t => Nat.not_le.2 hlen hw.1, if_pos hlen]
  · rw [if_neg hlen, if_neg hlen]
    by_cases hdepth : e.depth ≤ maxDepth
    · rw [if_pos hdepth, if_pos (show e.Writable t from ⟨Nat.not_lt.1 hlen, hdepth⟩)]
    · rw [if_neg hdepth, if_neg fun hw : e.Writable t => hdepth hw.2]

theorem writable_of_writeLabel (he : e.WellFormed) (h : writeLabel t e = .ok text) :
    e.Writable t := by
  rw [writeLabel_eq he] at h
  by_contra hw
  rw [if_neg hw] at h
  simp at h

/-- A well-formed expression that is not written exceeds a limit. -/
theorem writeLabel_eq_error_iff (he : e.WellFormed) {error : EliminationError} :
    writeLabel t e = .error error ↔ ¬ e.Writable t ∧ error = limitError t e := by
  rw [writeLabel_eq he]
  by_cases hw : e.Writable t
  · simp [hw]
  · simp [hw, eq_comm]

/-- It is too long or too deep. -/
theorem error_of_writeLabel (he : e.WellFormed) {error : EliminationError}
    (h : writeLabel t e = .error error) :
    error = .label (e.display t) (.tooLong (e.display t).length) ∨
      error = .label (e.display t) .tooDeep := by
  obtain ⟨-, rfl⟩ := (writeLabel_eq_error_iff he).1 h
  rw [limitError]
  split
  · exact Or.inl rfl
  · exact Or.inr rfl

/-- The printer leaves no needless bracket to be taken out. -/
theorem writeLabel_eq_simplify (he : e.WellFormed) :
    writeLabel t e =
      match Regex.simplify t (e.display t) with
      | .ok text => .ok text
      | .error cause => .error (.label (e.display t) cause) := by
  rw [writeLabel]
  rcases h : Regex.parse t (e.display t) with cause | e'
  · rw [Regex.simplify, h]
    rfl
  · have he' : e' = e := (Regex.parse_eq_ok_iff.1 h).2.1.unique (Regex.derives_display he t)
    rw [Regex.simplify_of_ok h, he']

theorem wellFormed_of_labelRegex (h : a.labelRegex t p q = .ok e) : e.WellFormed := by
  rw [labelRegex] at h
  split at h
  · obtain ⟨e', he', rfl⟩ := readLabel_eq_ok_iff.1 h
    exact (wellFormed_of_parse he').normalize
  · cases h
    exact trivial

theorem wellFormed_around {direct into loop out : Regex} (hd : direct.WellFormed)
    (hi : into.WellFormed) (hl : loop.WellFormed) (ho : out.WellFormed) :
    (around direct into loop out).WellFormed :=
  hd.either ((hi.followedBy hl.repeated).followedBy ho)

theorem wellFormed_throughTwo {first forth back second : Regex} (hf : first.WellFormed)
    (hforth : forth.WellFormed) (hb : back.WellFormed) (hs : second.WellFormed) :
    (throughTwo first forth back second).WellFormed :=
  (hf.repeated.followedBy hforth).followedBy
    (hs.either ((hb.followedBy hf.repeated).followedBy hforth)).repeated

/-! ### The transitions around a state -/

/-- The states from which a state is entered, other than itself. -/
def sources (a : Automaton) (q : State) : List State :=
  (a.predecessors q).filter fun p => p ≠ q

/-- The states that are entered from a state, other than itself. -/
def targets (a : Automaton) (q : State) : List State :=
  ((a.successors q).map Prod.fst).filter fun r => r ≠ q

/-- A transition that says what its ends are joined by, directly and through a
state between them. -/
def Detour (a : Automaton) (t : SymbolTable) (q : State) (w : Rewrite) : Prop :=
  ∃ direct into loop out, a.labelRegex t w.source w.target = .ok direct ∧
    a.labelRegex t w.source q = .ok into ∧ a.labelRegex t q q = .ok loop ∧
    a.labelRegex t q w.target = .ok out ∧
    writeLabel t (around direct into loop out) = .ok w.label

theorem forall₂_rewritesFrom {loop : Regex} {rs : List State} {ws : List Rewrite}
    (hloop : a.labelRegex t q q = .ok loop) (h : a.rewritesFrom t q loop rs p = .ok ws) :
    List.Forall₂ (fun ends w => w.source = ends.1 ∧ w.target = ends.2 ∧ a.Detour t q w)
      (rs.map fun r => (p, r)) ws := by
  rw [rewritesFrom, bind_eq_ok_iff] at h
  obtain ⟨into, hinto, h⟩ := h
  rw [List.forall₂_map_left_iff]
  refine (forall₂_of_mapM h).imp fun r w hw => ?_
  obtain ⟨direct, hdirect, hw⟩ := bind_eq_ok_iff.1 hw
  obtain ⟨out, hout, hw⟩ := bind_eq_ok_iff.1 hw
  obtain ⟨label, hlabel, hw⟩ := bind_eq_ok_iff.1 hw
  cases hw
  exact ⟨rfl, rfl, direct, into, loop, out, hdirect, hinto, hloop, hout, hlabel⟩

/-- There is one detour for each source and each target. -/
theorem forall₂_rewritesAround {ws : List Rewrite} (h : a.rewritesAround t q = .ok ws) :
    List.Forall₂ (fun ends w => w.source = ends.1 ∧ w.target = ends.2 ∧ a.Detour t q w)
      (a.sources q ×ˢ a.targets q) ws := by
  rw [rewritesAround, bind_eq_ok_iff] at h
  obtain ⟨loop, hloop, h⟩ := h
  obtain ⟨wss, hwss, h⟩ := bind_eq_ok_iff.1 h
  cases h
  -- one row for each source, with one detour for each target
  have hrows : List.Forall₂
      (List.Forall₂ fun ends w => w.source = ends.1 ∧ w.target = ends.2 ∧ a.Detour t q w)
      ((a.sources q).map fun p => (a.targets q).map fun r => (p, r)) wss := by
    rw [List.forall₂_map_left_iff]
    exact (forall₂_of_mapM hwss).imp fun p ws hws => forall₂_rewritesFrom hloop hws
  exact List.rel_flatten hrows

theorem detour_of_mem {ws : List Rewrite} {w : Rewrite} (h : a.rewritesAround t q = .ok ws)
    (hw : w ∈ ws) : w.source ∈ a.sources q ∧ w.target ∈ a.targets q ∧ a.Detour t q w := by
  obtain ⟨⟨p, r⟩, hends, rfl, rfl, hd⟩ :=
    exists_mem_left_of_forall₂ (forall₂_rewritesAround h) hw
  exact ⟨(List.mem_product.1 hends).1, (List.mem_product.1 hends).2, hd⟩

theorem exists_mem_rewritesAround {ws : List Rewrite} (h : a.rewritesAround t q = .ok ws)
    (hp : p ∈ a.sources q) (hr : r ∈ a.targets q) : ∃ label, ⟨p, r, label⟩ ∈ ws := by
  obtain ⟨⟨_, _, label⟩, hw, rfl, rfl, -⟩ :=
    exists_mem_right_of_forall₂ (forall₂_rewritesAround h) (List.pair_mem_product.2 ⟨hp, hr⟩)
  exact ⟨label, hw⟩

/-- The transitions that are looked at for the sake of a state: its own ones, and those
that lead past it from a source to a target. -/
def Consults (a : Automaton) (q p r : State) : Prop :=
  p = q ∨ r = q ∨ p ∈ a.sources q ∧ r ∈ a.targets q

/-- The expressions that are put together for a state: direct ways and ways through it,
from a source to a target. -/
def Combines (a : Automaton) (t : SymbolTable) (q : State) (e : Regex) : Prop :=
  ∃ p ∈ a.sources q, ∃ r ∈ a.targets q, ∃ direct into loop out,
    a.labelRegex t p r = .ok direct ∧ a.labelRegex t p q = .ok into ∧
    a.labelRegex t q q = .ok loop ∧ a.labelRegex t q r = .ok out ∧
    e = around direct into loop out

theorem wellFormed_of_combines (h : a.Combines t q e) : e.WellFormed := by
  obtain ⟨p, -, r, -, direct, into, loop, out, hd, hi, hl, ho, rfl⟩ := h
  exact wellFormed_around (wellFormed_of_labelRegex hd) (wellFormed_of_labelRegex hi)
    (wellFormed_of_labelRegex hl) (wellFormed_of_labelRegex ho)

/-- Either a label that is looked at cannot be read, or what is put together cannot be
written. -/
theorem cases_of_rewritesAround_eq_error {error : EliminationError}
    (h : a.rewritesAround t q = .error error) :
    (∃ p r, a.Consults q p r ∧ a.labelRegex t p r = .error error) ∨
      ∃ e, a.Combines t q e ∧ writeLabel t e = .error error := by
  rcases bind_eq_error_iff.1 h with h | ⟨loop, hloop, h⟩
  · exact Or.inl ⟨q, q, Or.inl rfl, h⟩
  · rcases bind_eq_error_iff.1 h with h | ⟨_, _, h⟩
    · obtain ⟨p, hp, h⟩ := exists_mem_of_mapM_eq_error h
      rcases bind_eq_error_iff.1 h with h | ⟨into, hinto, h⟩
      · exact Or.inl ⟨p, q, Or.inr (Or.inl rfl), h⟩
      · obtain ⟨r, hr, h⟩ := exists_mem_of_mapM_eq_error h
        rcases bind_eq_error_iff.1 h with h | ⟨direct, hdirect, h⟩
        · exact Or.inl ⟨p, r, Or.inr (Or.inr ⟨hp, hr⟩), h⟩
        · rcases bind_eq_error_iff.1 h with h | ⟨out, hout, h⟩
          · exact Or.inl ⟨q, r, Or.inl rfl, h⟩
          · rcases bind_eq_error_iff.1 h with h | ⟨label, _, h⟩
            · -- all four labels are read, and the expression on them is not written
              exact Or.inr ⟨_, ⟨p, hp, r, hr, direct, into, loop, out, hdirect, hinto, hloop,
                hout, rfl⟩, h⟩
            · cases h
    · cases h

/-- Where all labels can be read, a detour fails only to be written. -/
theorem error_of_rewritesAround (hread : ∀ p r, ∃ e, a.labelRegex t p r = .ok e)
    {error : EliminationError} (h : a.rewritesAround t q = .error error) :
    ∃ p ∈ a.sources q, ∃ r ∈ a.targets q, ∃ direct into loop out,
      a.labelRegex t p r = .ok direct ∧ a.labelRegex t p q = .ok into ∧
      a.labelRegex t q q = .ok loop ∧ a.labelRegex t q r = .ok out ∧
      writeLabel t (around direct into loop out) = .error error := by
  rcases cases_of_rewritesAround_eq_error h with ⟨p, r, -, hpr⟩ | ⟨e, he, hwrite⟩
  · obtain ⟨e, he⟩ := hread p r
    rw [hpr] at he
    simp at he
  · obtain ⟨p, hp, r, hr, direct, into, loop, out, hd, hi, hl, ho, rfl⟩ := he
    exact ⟨p, hp, r, hr, direct, into, loop, out, hd, hi, hl, ho, hwrite⟩

end Automaton

end RegexAutomata
