/-
The automaton of an expression accepts the language of the expression.

The walks through the fragment of an expression read just the texts of its
language (`Built.walks_eq`).  The induction follows the expression: for each
operation the edges of the whole are those of the parts, joined as
`walks_star`, `walks_union` and `walks_fused` have it.

What a label stands for is left open, as long as an operand stands for its own
language; both the printed operand and what the reader makes of it will do
(`language_ofRegex`).  With the printed operands the walks are the runs that
read a text letter by letter (`reads_ofRegex_iff`).
-/
import RegexAutomata.Proofs.Fragments
import RegexAutomata.Proofs.Joining
import RegexAutomata.Proofs.Printing

namespace RegexAutomata.Automaton

open Computability

variable {a b c : Automaton} {reads : String → Language Char} {e l r : Regex}
  {ends left right : Fragment} {js : List (State × State)}

/-! ### Edges of what is built -/

theorem isolated_of_le (h : b.WellLinked) {x : State} (hx : b.nextState ≤ x) :
    Isolated (b.edges reads) x := fun _ =>
  ⟨edges_eq_zero (h.label?_eq_none (Or.inl hx)), edges_eq_zero (h.label?_eq_none (Or.inr hx))⟩

theorem edges_addEnds (reads : String → Language Char) (a : Automaton) :
    a.addEnds.2.edges reads = a.edges reads := by
  funext p q
  rw [edges, label?_addEnds, edges]

/-- Where nothing is written over, joins are new edges that read nothing. -/
theorem edges_write_joins (hreads : reads Operand.emptyString.print = 1)
    (h : Fits b (joins js)) : (b.write (joins js)).edges reads = joined (b.edges reads) js := by
  have hmem : ∀ p q, (p, q) ∈ js →
      ⟨p, q, Operand.emptyString.print⟩ ∈ joins js := fun p q hpq => mem_joins.2 ⟨hpq, rfl⟩
  funext p q
  rw [edges, label?_write h.mem, written?_joins, joined]
  by_cases hpq : (p, q) ∈ js
  · rw [if_pos hpq, if_pos hpq, edges_eq_zero (h.free _ (hmem p q hpq)), zero_add]
    exact hreads
  · rw [if_neg hpq, if_neg hpq, add_zero, Option.none_or, edges]

theorem edges_merge_parts (hl : Builds l a left b) (hr : Builds r b right c) :
    (c.merge left.exit right.entry).edges reads =
      fused (c.edges reads) left.exit right.entry := by
  funext p q
  rw [edges, label?_merge_parts hl hr, fused]
  split
  · rfl
  · split <;> rfl

section Parts

variable (hl : Builds l a left b) (hr : Builds r b right c)
include hl hr

/-- The walks through the first part are not touched by the second one. -/
theorem walks_first :
    walks (c.edges reads) left.entry left.exit = walks (b.edges reads) left.entry left.exit := by
  -- the states below the first new one of the second part
  refine walks_congr_on (S := {x | x < b.nextState}) (fun p _ q hq => ?_) (fun p hp q => ?_)
    (lt_nextState hl.entry_mem) left.exit
  · exact edges_eq_zero (hl.linked.label?_eq_none (Or.inr (Nat.not_lt.1 hq)))
  · rw [edges, edges, hr.label?_eq p q (Or.inl hp)]

/-- No walk leads from one part into the other. -/
theorem walks_across :
    walks (c.edges reads) left.entry right.exit = 0 ∧
      walks (c.edges reads) right.entry left.exit = 0 := by
  have hlentry := lt_nextState hl.entry_mem
  have hlexit := lt_nextState hl.exit_mem
  -- the states of each part are closed under its edges, and the other end is not among them
  constructor
  · refine le_antisymm (walks_le_on (S := {x | x < b.nextState}) (B := fun _ => 0)
      (fun p hp q hq => ?_) (fun hf => ?_) (fun p _ q _ => ?_) hlentry) zero_le
    · exact edges_eq_zero (hr.label?_across hl.linked (Or.inl ⟨hp, Nat.not_lt.1 hq⟩))
    · exact absurd hf (Nat.not_lt.2 hr.exit_new)
    · rw [mul_zero]
  · refine le_antisymm (walks_le_on (S := {x | b.nextState ≤ x}) (B := fun _ => 0)
      (fun p hp q hq => ?_) (fun hf => ?_) (fun p _ q _ => ?_) hr.entry_new) zero_le
    · exact edges_eq_zero (hr.label?_across hl.linked (Or.inr ⟨hp, Nat.lt_of_not_le hq⟩))
    · exact absurd hf (Nat.not_le.2 hlexit)
    · rw [mul_zero]

end Parts

/-! ### The walks through a fragment -/

theorem walks_operand (h : a.WellLinked) (o : Operand) :
    walks ((a.addEnds.2.write
        [⟨a.addEnds.1.entry, a.addEnds.1.exit, o.print⟩]).edges reads)
      a.addEnds.1.entry a.addEnds.1.exit = reads o.print := by
  refine walks_alone (E := a.edges reads) (isolated_of_le h (Nat.le_refl _))
    (isolated_of_le h (Nat.le_succ _)) (Nat.ne_of_lt (Nat.lt_succ_self _)) fun p q => ?_
  rw [edges, label?_around (around_operand a o), written?, written?, Option.none_or]
  by_cases hpq : p = a.addEnds.1.entry ∧ q = a.addEnds.1.exit
  · rw [if_pos hpq, if_pos ⟨hpq.1.symm, hpq.2.symm⟩]
    rfl
  · rw [if_neg hpq, if_neg fun h => hpq ⟨h.1.symm, h.2.symm⟩]
    rfl

theorem walks_around_star {inner : Fragment} (hreads : reads Operand.emptyString.print = 1)
    (h : Builds e a inner b) :
    walks ((b.addEnds.2.write (joins (starJoins inner b.addEnds.1))).edges reads)
      b.addEnds.1.entry b.addEnds.1.exit = (walks (b.edges reads) inner.entry inner.exit)∗ := by
  have hentry := lt_nextState h.entry_mem
  have hexit := lt_nextState h.exit_mem
  rw [edges_write_joins hreads (fits_star h), edges_addEnds]
  refine walks_star (isolated_of_le h.linked (Nat.le_refl _))
    (isolated_of_le h.linked (Nat.le_succ _)) (Nat.ne_of_lt (Nat.lt_succ_self _)) ⟨?_, ?_⟩
    ⟨?_, ?_⟩
  · exact Nat.ne_of_lt hentry
  · exact Nat.ne_of_lt (Nat.lt_succ_of_lt hentry)
  · exact Nat.ne_of_lt hexit
  · exact Nat.ne_of_lt (Nat.lt_succ_of_lt hexit)

section Parts

variable (hl : Builds l a left b) (hr : Builds r b right c)
include hl hr

theorem walks_around_union (hreads : reads Operand.emptyString.print = 1) :
    walks ((c.addEnds.2.write (joins (unionJoins left right c.addEnds.1))).edges reads)
      c.addEnds.1.entry c.addEnds.1.exit =
        walks (b.edges reads) left.entry left.exit +
          walks (c.edges reads) right.entry right.exit := by
  have hlentry := lt_nextState (hr.contains_of_contains hl.entry_mem)
  have hlexit := lt_nextState (hr.contains_of_contains hl.exit_mem)
  have hrentry := lt_nextState hr.entry_mem
  have hrexit := lt_nextState hr.exit_mem
  -- the states of the parts are none of the two new ones
  have hne : ∀ x, x < c.nextState → x ≠ c.nextState ∧ x ≠ c.nextState + 1 := fun x hx =>
    ⟨Nat.ne_of_lt hx, Nat.ne_of_lt (Nat.lt_succ_of_lt hx)⟩
  rw [edges_write_joins hreads (fits_union hl hr), edges_addEnds, ← walks_first hl hr]
  exact walks_union (isolated_of_le hr.linked (Nat.le_refl _))
    (isolated_of_le hr.linked (Nat.le_succ _)) (Nat.ne_of_lt (Nat.lt_succ_self _))
    (hne _ hlentry) (hne _ hrentry) (hne _ hlexit) (hne _ hrexit) (walks_across hl hr).1
    (walks_across hl hr).2

theorem walks_merge_parts :
    walks ((c.merge left.exit right.entry).edges reads) left.entry right.exit =
      walks (b.edges reads) left.entry left.exit *
        walks (c.edges reads) right.entry right.exit := by
  obtain ⟨hne, -, -, hleave, henter⟩ := meet_of_parts hl hr
  have hentry : left.entry ≠ right.entry :=
    Nat.ne_of_lt (Nat.lt_of_lt_of_le (lt_nextState hl.entry_mem) hr.entry_new)
  rw [edges_merge_parts hl hr, ← walks_first hl hr]
  exact walks_fused (fun q => edges_eq_zero (hleave q)) (fun p => edges_eq_zero (henter p)) hentry
    hne hr.entry_ne_exit.symm (walks_across hl hr).1 (walks_across hl hr).2

end Parts

/-- The walks through the fragment of an expression read its language. -/
theorem Built.walks_eq (h : Built e a ends b)
    (hreads : ∀ o : Operand, o.Proper → reads o.print = o.language) (ha : a.WellLinked)
    (he : e.WellFormed) : walks (b.edges reads) ends.entry ends.exit = e.language := by
  have hempty : reads Operand.emptyString.print = 1 := hreads .emptyString trivial
  -- on what is built: the walks of a whole are those of its parts, joined
  induction h with
  | operand o a =>
    rw [walks_operand ha, hreads o he]
    rfl
  | star h ih => rw [walks_around_star hempty (h.builds ha), ih ha he, Regex.language_star]
  | concat hl hr ihl ihr =>
    have hleft := hl.builds ha
    have hright := hr.builds hleft.linked
    rw [walks_merge_parts hleft hright, ihl ha he.1, ihr hleft.linked he.2,
      Regex.language_concat]
  | union hl hr ihl ihr =>
    have hleft := hl.builds ha
    have hright := hr.builds hleft.linked
    rw [walks_around_union hleft hright hempty, ihl ha he.1, ihr hleft.linked he.2,
      Regex.language_union]

/-! ### The automaton of an expression -/

theorem accepted_ofRegex (hreads : ∀ o : Operand, o.Proper → reads o.print = o.language)
    (he : e.WellFormed) : (ofRegex e).accepted reads = e.language := by
  obtain ⟨hi, hf, -⟩ := terminals_eq_ok_iff.1 (terminals_ofRegex e)
  rw [accepted_eq reads hi hf,
    ← (built_buildInto e .empty).walks_eq hreads wellLinked_empty he]
  congr 1
  rw [ofRegex_eq_roles]
  rfl

/-- A printed operand is read as what it is. -/
theorem parse_print (t : SymbolTable) {o : Operand} (ho : o.Proper) :
    Regex.parse t o.print = .ok (.operand o) := by
  have he : (Regex.operand o).WellFormed := ho
  rw [← Regex.display_operand t]
  exact Regex.parse_display he t (Regex.writable_operand t o).1 (Regex.writable_operand t o).2

theorem language_ofRegex (t : SymbolTable) (he : e.WellFormed) :
    (ofRegex e).language t = e.language :=
  accepted_ofRegex (fun o ho => by rw [labelLanguage, parse_print t ho]; rfl) he

/-! ### Reading letter by letter -/

/-- A run that reads a text along the transitions of an automaton: a transition
that carries `ε` reads nothing, one that carries a letter or digit reads just
this, and no other transition can be taken. -/
inductive Reads (a : Automaton) : State → State → List Char → Prop
  /-- Staying where one is. -/
  | nil (p : State) : Reads a p p []
  /-- Going on without reading. -/
  | silent {p q r : State} {w : List Char}
    (h : a.label? p q = some Operand.emptyString.print) (hw : Reads a q r w) : Reads a p r w
  /-- Reading a letter or digit. -/
  | letter {p q r : State} {c : Char} {w : List Char} (hc : (Operand.char c).Proper)
    (h : a.label? p q = some (Operand.char c).print) (hw : Reads a q r w) : Reads a p r (c :: w)

/-- What a label that is a single operand stands for; any other label stands for
nothing. -/
def operandLanguage (text : String) : Language Char :=
  (Regex.loneOperand? text.toList).elim 0 Operand.language

theorem operandLanguage_print {o : Operand} (ho : o.Proper) :
    operandLanguage o.print = o.language := by
  have hlone : Regex.loneOperand? o.print.toList = some o := by
    rw [Operand.print, Char.toString, String.toList_singleton]
    exact Operand.ofChar?_toChar ho
  rw [operandLanguage, hlone]
  rfl

/-- A label that stands for some text is a printed operand. -/
theorem exists_print_of_mem_operandLanguage {text : String} {w : List Char}
    (h : w ∈ operandLanguage text) : ∃ o : Operand, o.Proper ∧ text = o.print ∧ w ∈ o.language := by
  rw [operandLanguage] at h
  rcases hlone : Regex.loneOperand? text.toList with _ | o
  · rw [hlone] at h
    exact absurd h (Language.notMem_zero w)
  · rw [hlone] at h
    obtain ⟨c, htext, hc⟩ := Regex.loneOperand?_eq_some hlone
    obtain ⟨ho, rfl⟩ := Operand.ofChar?_eq_some_iff.1 hc
    refine ⟨o, ho, ?_, h⟩
    rw [Operand.print, Char.toString, ← String.toList_inj, htext, String.toList_singleton]

/-- Such runs are the walks on which each label stands for its operand. -/
theorem reads_iff_walk {p q : State} {w : List Char} :
    Reads a p q w ↔ Walk (a.edges operandLanguage) p q w := by
  constructor
  · intro h
    induction h with
    | nil p => exact .nil p
    | silent h _ ih =>
      refine Walk.cons (u := []) ?_ ih
      rw [edges_of_label? h, operandLanguage_print (o := .emptyString) trivial]
      exact (Language.mem_one _).2 rfl
    | @letter p q r c w hc h _ ih =>
      refine Walk.cons (u := [c]) ?_ ih
      rw [edges_of_label? h, operandLanguage_print hc]
      exact Set.mem_singleton [c]
  · intro h
    induction h with
    | nil p => exact .nil p
    | @cons p q r u v hu _ ih =>
      rcases hl : a.label? p q with _ | text
      · rw [edges_eq_zero hl] at hu
        exact absurd hu (Language.notMem_zero u)
      · rw [edges_of_label? hl] at hu
        obtain ⟨o, ho, rfl, hmem⟩ := exists_print_of_mem_operandLanguage hu
        cases o with
        | char c =>
          rw [show u = [c] from hmem]
          exact .letter ho hl ih
        | emptyString =>
          rw [(Language.mem_one u).1 hmem]
          exact .silent hl ih
        | emptySet => exact absurd hmem (Language.notMem_zero u)

/-- **The automaton of an expression accepts its language.**  Just the texts of
the expression are read on the runs from the initial to the final state. -/
theorem reads_ofRegex_iff (he : e.WellFormed) (w : List Char) :
    (∃ i f, (ofRegex e).initial = some i ∧ (ofRegex e).final = some f ∧ Reads (ofRegex e) i f w) ↔
      w ∈ e.language := by
  simp only [reads_iff_walk]
  rw [← accepted_ofRegex (fun _ ho => operandLanguage_print ho) he]
  rfl

/-- The text `ab` is read on a run through the automaton of `(a+∅)|b*`. -/
theorem reads_ofRegex_nested :
    let e : Regex := .concat (.union (.operand (.char 'a')) .emptySet)
      (.star (.operand (.char 'b')))
    e.WellFormed ∧ ['a', 'b'] ∈ e.language ∧
      ∃ i f, (ofRegex e).initial = some i ∧ (ofRegex e).final = some f ∧
        Reads (ofRegex e) i f ['a', 'b'] := by
  intro e
  have he : e.WellFormed := by decide
  have hw : ['a', 'b'] ∈ e.language := by
    refine Language.mem_mul.2 ⟨['a'], Or.inl rfl, ['b'], ?_, rfl⟩
    exact le_kstar (a := Operand.language (.char 'b')) rfl
  exact ⟨he, hw, (reads_ofRegex_iff he ['a', 'b']).2 hw⟩

end RegexAutomata.Automaton
