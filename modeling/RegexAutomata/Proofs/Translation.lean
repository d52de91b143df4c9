/-
What is written with other signs.

Two tables of signs translate texts into one another, character by character
(`SymbolTable.translate`).  Operands and brackets stay as they are, and a sign is read
with the one table as its translation is read with the other one.

* `parse_translate` — a translated text is read as before, with the same faults at the
  same positions;
* `display_translate` — what is written is the translation of what was written before;
* `eliminate_translate` — the expressions that arise while an automaton is turned into a
  text do not depend on the signs, and neither do the lengths of what is written.
-/
import RegexAutomata.Proofs.Limits
import RegexAutomata.Proofs.Resolution

namespace RegexAutomata

namespace SymbolTable

variable {s t : SymbolTable} {c : Char}

/-- Put the sign that an operation has in another table in place of the one that it has
here, and leave other characters alone. -/
def translate (s t : SymbolTable) (c : Char) : Char :=
  match s.operator? c with
  | some op => t.symbol op
  | none => c

/-- Translate all characters of a text. -/
def translateText (s t : SymbolTable) (text : String) : String := text.map (s.translate t)

theorem translate_symbol (s t : SymbolTable) (op : Operator) :
    s.translate t (s.symbol op) = t.symbol op := by
  rw [translate, operator?_symbol]

theorem translate_eq_self (h : s.operator? c = none) : s.translate t c = c := by
  rw [translate, h]

/-- A character is a sign, or it is left alone. -/
theorem sign_or_translate_eq_self (s t : SymbolTable) (c : Char) :
    (∃ op, s.symbol op = c) ∨ s.operator? c = none ∧ s.translate t c = c := by
  rcases h : s.operator? c with _ | op
  · exact Or.inr ⟨rfl, translate_eq_self h⟩
  · exact Or.inl ⟨op, operator?_eq_some_iff.1 h⟩

theorem translate_eq_open_iff : s.translate t c = '(' ↔ c = '(' := by
  rcases sign_or_translate_eq_self s t c with ⟨op, rfl⟩ | ⟨-, hc⟩
  · rw [translate_symbol]
    exact iff_of_false (t.symbol_ne_open op) (s.symbol_ne_open op)
  · rw [hc]

theorem translate_eq_close_iff : s.translate t c = ')' ↔ c = ')' := by
  rcases sign_or_translate_eq_self s t c with ⟨op, rfl⟩ | ⟨-, hc⟩
  · rw [translate_symbol]
    exact iff_of_false (t.symbol_ne_close op) (s.symbol_ne_close op)
  · rw [hc]

theorem ofChar?_translate (s t : SymbolTable) (c : Char) :
    Operand.ofChar? (s.translate t c) = Operand.ofChar? c := by
  rcases sign_or_translate_eq_self s t c with ⟨op, rfl⟩ | ⟨-, hc⟩
  · rw [translate_symbol, ofChar?_symbol, ofChar?_symbol]
  · rw [hc]

theorem translate_toChar (s t : SymbolTable) {o : Operand} (ho : o.Proper) :
    s.translate t o.toChar = o.toChar :=
  translate_eq_self (operator?_of_ofChar? s (Operand.ofChar?_toChar ho))

theorem operator?_eq_none (h : ∀ op, t.symbol op ≠ c) : t.operator? c = none := by
  rcases hop : t.operator? c with _ | op
  · rfl
  · exact absurd (operator?_eq_some_iff.1 hop) (h op)

/-- A character that may stand in a text is read as the same operation. -/
theorem operator?_translate (hc : Regex.isAllowed s c = true) :
    t.operator? (s.translate t c) = s.operator? c := by
  rcases sign_or_translate_eq_self s t c with ⟨op, rfl⟩ | ⟨hnone, hself⟩
  · rw [translate_symbol, operator?_symbol, operator?_symbol]
  · rw [hself, hnone]
    -- it is no sign of the one table, so it is a bracket or an operand, and none of the other
    simp only [Regex.isAllowed, isOperator, hnone, Option.isSome_none, Bool.or_false,
      Bool.or_eq_true, beq_iff_eq] at hc
    rcases hc with (rfl | rfl) | hc
    · exact operator?_eq_none t.symbol_ne_open
    · exact operator?_eq_none t.symbol_ne_close
    · obtain ⟨o, ho⟩ := Option.isSome_iff_exists.1 hc
      exact operator?_of_ofChar? t ho

theorem isAllowed_translate (hc : Regex.isAllowed s c = true) :
    Regex.isAllowed t (s.translate t c) = true := by
  rw [Regex.isAllowed, isOperator, operator?_translate hc, ofChar?_translate]
  rw [Regex.isAllowed, isOperator] at hc
  simp only [Bool.or_eq_true, beq_iff_eq] at hc ⊢
  rwa [translate_eq_open_iff, translate_eq_close_iff]

end SymbolTable

namespace Text

/-! ### Brackets -/

section Brackets

variable {f : Char → Char} (hopen : ∀ c, f c = '(' ↔ c = '(') (hclose : ∀ c, f c = ')' ↔ c = ')')
include hopen hclose

theorem closesAtEnd_map (depth : Nat) (cs : List Char) :
    closesAtEnd depth (cs.map f) = closesAtEnd depth cs := by
  fun_induction closesAtEnd depth cs with
  | case1 depth => rfl
  | case2 depth c =>
    show decide (f c = ')') = decide (c = ')')
    rw [decide_eq_decide]
    exact hclose c
  | case3 depth d cs ih =>
    rw [List.map_cons, List.map_cons, closesAtEnd, if_pos ((hopen _).2 rfl)]
    exact ih
  | case4 depth d cs hne ih =>
    rw [List.map_cons, List.map_cons, closesAtEnd, if_neg (mt (hopen _).1 hne),
      if_pos ((hclose _).2 rfl)]
    exact congrArg _ ih
  | case5 depth c d cs hopen' hclose' ih =>
    rw [List.map_cons, List.map_cons, closesAtEnd, if_neg (mt (hopen _).1 hopen'),
      if_neg (mt (hclose _).1 hclose')]
    exact ih

theorem unwrap?_map (cs : List Char) : unwrap? (cs.map f) = (unwrap? cs).map (List.map f) := by
  rcases cs with _ | ⟨c, cs⟩
  · rfl
  · have hc : decide (f c = '(') = decide (c = '(') := decide_eq_decide.2 (hopen c)
    rw [List.map_cons, unwrap?, unwrap?, closesAtEnd_map hopen hclose, hc, ← List.map_dropLast]
    split
    · rfl
    · rfl

theorem stripAll_map (start : Nat) (cs : List Char) :
    stripAll start (cs.map f) = ((stripAll start cs).1, (stripAll start cs).2.map f) := by
  fun_induction stripAll start cs with
  | case1 start cs inner h ih =>
    have hmap : unwrap? (cs.map f) = some (inner.map f) := by
      rw [unwrap?_map hopen hclose, h, Option.map_some]
    rw [stripAll]
    split
    · rename_i inner' h'
      rw [hmap, Option.some_inj] at h'
      rw [← h', ih]
    · rename_i h'
      rw [hmap] at h'
      simp at h'
  | case2 start cs h =>
    have hmap : unwrap? (cs.map f) = none := by
      rw [unwrap?_map hopen hclose, h, Option.map_none]
    rw [stripAll]
    split
    · rename_i inner' h'
      rw [hmap] at h'
      simp at h'
    · rfl

theorem surplusFrom_map (depth : Int) (cs : List Char) :
    Regex.surplusFrom depth (cs.map f) = Regex.surplusFrom depth cs := by
  induction cs generalizing depth with
  | nil => rfl
  | cons c cs ih =>
    rw [List.map_cons, Regex.surplusFrom, Regex.surplusFrom, ih, ih, ih]
    simp only [hopen, hclose]

end Brackets

theorem mem_of_mem_stripAll {start : Nat} {cs : List Char} {c : Char}
    (h : c ∈ (stripAll start cs).2) : c ∈ cs := by
  fun_induction stripAll start cs with
  | case1 start cs inner hinner ih =>
    rw [unwrap?_eq_some hinner]
    exact List.mem_cons_of_mem _ (List.mem_append_left _ (ih h))
  | case2 => exact h

end Text

namespace Regex

open SymbolTable

variable {s t : SymbolTable} {cs : List Char} {e : Regex}

/-! ### Reading -/

theorem validateFrom_translate (h : Allowed s cs) (pos depth : Nat) :
    validateFrom t pos depth (cs.map (s.translate t)) = validateFrom s pos depth cs := by
  induction cs generalizing pos depth with
  | nil => rfl
  | cons c cs ih =>
    obtain ⟨hc, hcs⟩ := List.forall_mem_cons.1 h
    simp only [List.map_cons, validateFrom, translate_eq_open_iff, translate_eq_close_iff,
      isAllowed_translate hc, hc, if_true, ih hcs]

theorem scanOutside_translate (h : Allowed s cs) (level depth : Int) (pos : Nat)
    (seen : Outside) :
    scanOutside t level pos depth seen (cs.map (s.translate t)) =
      scanOutside s level pos depth seen cs := by
  induction cs generalizing pos depth seen with
  | nil => rfl
  | cons c cs ih =>
    obtain ⟨hc, hcs⟩ := List.forall_mem_cons.1 h
    rw [List.map_cons, scanOutside, scanOutside]
    simp only [translate_eq_open_iff, translate_eq_close_iff, operator?_translate hc, ih hcs]

theorem root?_translate (h : Allowed s cs) :
    root? t (cs.map (s.translate t)) = root? s cs := by
  have hsurplus : surplus (cs.map (s.translate t)) = surplus cs :=
    Text.surplusFrom_map (fun _ => translate_eq_open_iff) (fun _ => translate_eq_close_iff) 0 cs
  rw [root?, root?, hsurplus, scanOutside_translate h]

theorem loneOperand?_translate (s t : SymbolTable) (cs : List Char) :
    loneOperand? (cs.map (s.translate t)) = loneOperand? cs := by
  rcases cs with _ | ⟨c, _ | ⟨d, cs⟩⟩
  · rfl
  · exact ofChar?_translate s t c
  · rfl

/-- An operation is put together in the same way if its operands are read alike. -/
theorem parseOperands_map {f : Char → Char}
    {read read' : Nat → List Char → Except ParseError Regex} {left right : List Char}
    {start after : Nat} (op : Operator) (hleft : read' start (left.map f) = read start left)
    (hright : read' after (right.map f) = read after right) :
    parseOperands read' op start after (left.map f) (right.map f) =
      parseOperands read op start after left right := by
  rw [parseOperands, parseOperands, hleft, hright]
  simp only [List.map_eq_nil_iff]

theorem parseWithin_translate (h : Allowed s cs) (allowance start : Nat) :
    parseWithin t allowance start (cs.map (s.translate t)) = parseWithin s allowance start cs := by
  induction allowance generalizing start cs with
  | zero => rfl
  | succ allowance ih =>
    have hstrip : Allowed s (Text.stripAll start cs).2 :=
      fun c hc => h c (Text.mem_of_mem_stripAll hc)
    rw [parseWithin, parseWithin, Text.stripAll_map (fun _ => translate_eq_open_iff)
      (fun _ => translate_eq_close_iff)]
    rcases hbody : Text.stripAll start cs with ⟨first, _ | ⟨c, body⟩⟩
    · rfl
    · rw [hbody] at hstrip
      have hlone := loneOperand?_translate s t (c :: body)
      have hroot := root?_translate (t := t) hstrip
      rw [List.map_cons] at hlone hroot ⊢
      dsimp only
      rw [hlone]
      rcases loneOperand? (c :: body) with _ | o
      · dsimp only
        rw [hroot]
        rcases root? s (c :: body) with _ | ⟨root, op⟩
        · rfl
        · dsimp only
          rw [← List.map_cons, ← List.map_take, ← List.map_drop]
          refine parseOperands_map op (ih (fun d hd => ?_) _) (ih (fun d hd => ?_) _)
          · exact hstrip d (List.mem_of_mem_take hd)
          · exact hstrip d (List.mem_of_mem_drop hd)
      · rfl

/-- A translated text is read as before, or has the same fault at the same place. -/
theorem parse_translate {text : String} (h : Allowed s text.toList) :
    parse t (s.translateText t text) = parse s text := by
  rw [parse, parse, translateText, String.toList_map, parseChars, parseChars, List.length_map,
    validateFrom_translate h, parseWithin_translate h]

/-! ### Writing -/

/-- Brackets stand in the same places, so it is enough to look at what stands without
them. -/
theorem placed_translate_of_zero (h : e.placed t 0 = (e.placed s 0).map (s.translate t))
    (place : Nat) : e.placed t place = (e.placed s place).map (s.translate t) := by
  by_cases hle : place ≤ e.strength
  · rw [placed_of_le hle, placed_of_le hle, h]
  · have hlt := Nat.lt_of_not_le hle
    have hopen : s.translate t '(' = '(' := translate_eq_open_iff.2 rfl
    have hclose : s.translate t ')' = ')' := translate_eq_close_iff.2 rfl
    rw [placed_of_lt hlt, placed_of_lt hlt, h, List.map_cons, List.map_append,
      List.map_singleton, hopen, hclose]

/-- What is written in some place is the translation of what was written there. -/
theorem placed_translate (he : e.WellFormed) (s t : SymbolTable) (place : Nat) :
    e.placed t place = (e.placed s place).map (s.translate t) := by
  induction e generalizing place with
  | operand o =>
    refine placed_translate_of_zero ?_ place
    rw [placed_operand, placed_operand, List.map_singleton, translate_toChar s t he]
  | star e ih =>
    refine placed_translate_of_zero ?_ place
    rw [placed_star, placed_star, ih he, List.map_append, List.map_singleton, translate_symbol]
  | concat l r ihl ihr =>
    refine placed_translate_of_zero ?_ place
    rw [placed_concat, placed_concat, ihl he.1, ihr he.2, List.map_append, List.map_cons,
      translate_symbol]
  | union l r ihl ihr =>
    refine placed_translate_of_zero ?_ place
    rw [placed_union, placed_union, ihl he.1, ihr he.2, List.map_append, List.map_cons,
      translate_symbol]

theorem display_translate (he : e.WellFormed) (s t : SymbolTable) :
    e.display t = s.translateText t (e.display s) := by
  rw [← String.toList_inj, translateText, String.toList_map, display, display,
    String.toList_ofList, String.toList_ofList]
  exact placed_translate he s t 0

/-- What is written is as long as before. -/
theorem writable_translate (he : e.WellFormed) (s t : SymbolTable) :
    e.Writable t ↔ e.Writable s := by
  rw [Writable, Writable, display_translate he s t, translateText, String.length_map]

/-- Needless brackets are the same ones. -/
theorem simplify_translate {text : String} (h : Allowed s text.toList) :
    simplify t (s.translateText t text) = (simplify s text).map (s.translateText t) := by
  rcases hparse : parse s text with error | e
  · have hs : simplify s text = .error error := by
      rw [simplify, hparse]
      rfl
    have ht : simplify t (s.translateText t text) = .error error := by
      rw [simplify, parse_translate h, hparse]
      rfl
    rw [hs, ht]
    rfl
  · have he : e.WellFormed := (parse_eq_ok_iff.1 hparse).2.1.wellFormed
    rw [simplify_of_ok hparse, simplify_of_ok ((parse_translate h).trans hparse),
      display_translate he s t]
    rfl

end Regex

/-! ### Turning an automaton into a text -/

namespace Ways

variable {m : Ways} {i f : State} {qs : List State} {e : Regex}

/-- Of well-formed ways only well-formed expressions arise. -/
theorem Arises.wellFormed (h : Arises i f qs m e) (hm : ∀ p r, (m p r).WellFormed) :
    e.WellFormed := by
  induction h with
  | way p r => exact hm p r
  | @later q qs m e _ ih =>
    refine ih fun p r => ?_
    by_cases hpr : p = q ∨ r = q
    · rw [bypass_of_eq hpr]
      exact trivial
    · obtain ⟨hp, hr⟩ := not_or.1 hpr
      rw [bypass_of_ne hp hr]
      exact Automaton.wellFormed_around (hm p r) (hm p q) (hm q q) (hm q r)
  | through m => exact Automaton.wellFormed_throughTwo (hm i i) (hm i f) (hm f i) (hm f f)

/-- What the ways are resolved to arises. -/
theorem arises_resolve (m : Ways) (i f : State) (qs : List State) :
    Arises i f qs m (m.resolve i f qs) := by
  induction qs generalizing m with
  | nil => exact .through m
  | cons q qs ih => exact .later (ih (m.bypass q))

end Ways

namespace Automaton

variable {s t : SymbolTable} {e : Regex} {text : String}

/-- The ways of the automaton of an expression do not depend on the signs. -/
theorem ways_ofRegex_congr (he : e.WellFormed) (s t : SymbolTable) :
    (ofRegex e).ways t = (ofRegex e).ways s := by
  funext p r
  rcases hl : (ofRegex e).label? p r with _ | label
  · rw [ways_of_label?_eq_none hl, ways_of_label?_eq_none hl]
  · obtain ⟨o, ho, rfl⟩ := label?_ofRegex he hl
    have hread : ∀ t, (ofRegex e).ways t p r = .operand o := fun t =>
      ways_eq (by rw [labelRegex, hl]; exact readLabel_print t ho)
    rw [hread t, hread s]

theorem wellFormed_of_arises (he : e.WellFormed) {x : Regex} (hx : (ofRegex e).Arises t x) :
    x.WellFormed := by
  rw [arises_iff (terminals_ofRegex e)] at hx
  exact hx.wellFormed (ready_ofRegex he t).wellFormed_ways

theorem arises_congr (he : e.WellFormed) (s t : SymbolTable) {x : Regex} :
    (ofRegex e).Arises t x ↔ (ofRegex e).Arises s x := by
  rw [arises_iff (terminals_ofRegex e), arises_iff (terminals_ofRegex e),
    ways_ofRegex_congr he s t]

/-- What comes back with one table comes back with another one. -/
theorem exists_eliminate_of_exists (he : e.WellFormed) (s t : SymbolTable)
    (h : ∃ out, (ofRegex e).eliminate s = .ok out) : ∃ out, (ofRegex e).eliminate t = .ok out := by
  rcases eliminate_cases he t with ⟨hout, -⟩ | ⟨x, hx, hw, -⟩
  · exact hout
  · -- what is in the way with the one table is in the way with the other
    rw [Regex.writable_translate (wellFormed_of_arises he hx) s t] at hw
    rw [arises_congr he s t] at hx
    rcases eliminate_cases he s with ⟨-, hall⟩ | ⟨y, -, -, herror⟩
    · exact absurd (hall x hx) hw
    · obtain ⟨out, hout⟩ := h
      rw [hout] at herror
      simp at herror

/-- There is one expression that is written, whatever the signs. -/
theorem exists_display_of_eliminate (he : e.WellFormed) :
    ∃ x : Regex, x.WellFormed ∧ ∀ t out, (ofRegex e).eliminate t = .ok out → out = x.display t := by
  have hif := terminals_ofRegex e
  refine ⟨((ofRegex e).ways .standard).resolve (buildInto e .empty).1.entry
    (buildInto e .empty).1.exit (ofRegex e).innerStates, ?_, ?_⟩
  · exact wellFormed_of_arises he ((arises_iff hif).2 (Ways.arises_resolve _ _ _ _))
  · intro t out hout
    rw [ways_ofRegex_congr he t .standard]
    exact (ready_ofRegex he t).eq_display_of_eliminate hif hout

theorem eliminate_translate (he : e.WellFormed) (s t : SymbolTable) (out : String) :
    (ofRegex e).eliminate t = .ok out ↔
      ∃ out', (ofRegex e).eliminate s = .ok out' ∧ out = s.translateText t out' := by
  obtain ⟨x, hx, hprint⟩ := exists_display_of_eliminate he
  constructor
  · intro hout
    obtain ⟨out', hout'⟩ := exists_eliminate_of_exists he t s ⟨out, hout⟩
    refine ⟨out', hout', ?_⟩
    rw [hprint t out hout, hprint s out' hout', Regex.display_translate hx s t]
  · rintro ⟨out', hout', rfl⟩
    obtain ⟨out, hout⟩ := exists_eliminate_of_exists he s t ⟨out', hout'⟩
    rw [hprint s out' hout', ← Regex.display_translate hx s t, ← hprint t out hout]
    exact hout

end Automaton

namespace SymbolTable

open Regex Automaton

/-- **Signs are only signs.**  A text in which each sign is put in place of the one that
another table has for the same operation is read as before, or has the same fault at the
same position, and loses the same brackets; and an expression is written, and comes back
from its automaton, with the one sign in place of the other and no other change. -/
theorem translate_commutes (s t : SymbolTable) :
    (∀ text, Allowed s text.toList →
      parse t (s.translateText t text) = parse s text ∧
      simplify t (s.translateText t text) = (simplify s text).map (s.translateText t)) ∧
    ∀ e : Regex, e.WellFormed →
      e.display t = s.translateText t (e.display s) ∧
      ∀ out, (ofRegex e).eliminate t = .ok out ↔
        ∃ out', (ofRegex e).eliminate s = .ok out' ∧ out = s.translateText t out' := by
  constructor
  · intro text h
    exact ⟨parse_translate h, simplify_translate h⟩
  · intro e he
    exact ⟨display_translate he s t, eliminate_translate he s t⟩

/-- With the signs of concatenation and union exchanged, `a+((b|c))+d` is what
`a|((b+c))|d` was before. -/
theorem translate_commutes_exchanged :
    ∃ (t : SymbolTable) (e : Regex), e.WellFormed ∧ t.concat = '+' ∧ t.union = '|' ∧
      parse t "a+((b|c))+d" = .ok e ∧ simplify t "a+((b|c))+d" = .ok "a+(b|c)+d" ∧
      e.display t = "a+(b|c)+d" ∧ (ofRegex e).eliminate t = .ok "(a+b|a+c)+d" := by
  let t : SymbolTable := ⟨'*', '+', '|', by decide, by decide⟩
  let e : Regex := .concat (.concat (.operand (.char 'a'))
    (.union (.operand (.char 'b')) (.operand (.char 'c')))) (.operand (.char 'd'))
  have he : e.WellFormed := by decide
  have hparse : parse .standard "a|((b+c))|d" = .ok e := by cbv
  have hdisplay : e.display .standard = "a|(b+c)|d" := by cbv
  have heliminate : (ofRegex e).eliminate .standard = .ok "(a|b+a|c)|d" := by
    subst e
    cbv
  have htext : standard.translateText t "a|((b+c))|d" = "a+((b|c))+d" := by
    subst t
    cbv
  have hwith : standard.translateText t "a|(b+c)|d" = "a+(b|c)+d" := by
    subst t
    cbv
  have hout : standard.translateText t "(a|b+a|c)|d" = "(a+b|a+c)+d" := by
    subst t
    cbv
  obtain ⟨htexts, hexpressions⟩ := translate_commutes .standard t
  obtain ⟨hread, hshort⟩ := htexts "a|((b+c))|d" (List.all_eq_true.1 (by cbv))
  obtain ⟨hwritten, hback⟩ := hexpressions e he
  rw [htext] at hread hshort
  refine ⟨t, e, he, rfl, rfl, hread.trans hparse, ?_, ?_, ?_⟩
  · rw [hshort, simplify_of_ok hparse, hdisplay, ← hwith]
    rfl
  · rw [hwritten, hdisplay, hwith]
  · exact (hback _).2 ⟨_, heliminate, hout.symm⟩

end SymbolTable

end RegexAutomata
