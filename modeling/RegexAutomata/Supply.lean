/-
A supply of values none of which is handed out twice.

The values follow one another (`Successor`); a `Supply` knows the one that is
due.  After the last code point before the surrogates the next character is
the first one behind them.  Numbers are unbounded: that a counter of some width
overflows is ruled out.

As long as the last of all values is not handed out, a supply hands out greater
and greater ones (`Supply.pairwise_take`).
-/

namespace RegexAutomata

/-- Types whose values follow one another, each one smaller than the next unless
it is the last. -/
class Successor (α : Type) [LT α] where
  /-- The value directly after the one given. -/
  next : α → α
  /-- Whether there is no value after the one given. -/
  isLast : α → Bool
  lt_next : ∀ {a : α}, isLast a = false → a < next a

instance : Successor Nat where
  next := (· + 1)
  isLast _ := false
  lt_next _ := Nat.lt_succ_self _

instance : Successor Int where
  next := (· + 1)
  isLast _ := false
  lt_next _ := Int.lt_succ _

/-- The code point after the one of a character, if there is one. -/
def nextCodePoint (c : Char) : Nat := if c.toNat = 0xD7FF then 0xE000 else c.toNat + 1

theorem isValidChar_nextCodePoint {c : Char} (h : c.toNat ≠ 0x10FFFF) :
    (nextCodePoint c).isValidChar := by
  have hvalid : c.toNat.isValidChar := c.valid
  simp only [nextCodePoint, Nat.isValidChar] at hvalid ⊢
  split <;> omega

instance : Successor Char where
  next c := Char.ofNat (nextCodePoint c)
  isLast c := c.toNat = 0x10FFFF
  lt_next {c} h := by
    have hvalid := isValidChar_nextCodePoint (of_decide_eq_false h)
    rw [Char.ofNat, dif_pos hvalid]
    show c.toNat < nextCodePoint c
    rw [nextCodePoint]
    split <;> omega

/-- The values from `due` on. -/
structure Supply (α : Type) where
  /-- The value that is handed out next. -/
  due : α

namespace Supply

variable {α : Type} [LT α] [Successor α] {s : Supply α} {count : Nat} {a : α}

/-- Hand out the value that is due. -/
def fresh (s : Supply α) : α × Supply α := (s.due, ⟨Successor.next s.due⟩)

/-- The first `count` values. -/
def take (s : Supply α) : (count : Nat) → List α
  | 0 => []
  | count + 1 => s.fresh.1 :: s.fresh.2.take count

/-! ### Values that are handed out -/

section Ascending

variable [@Trans α α α (· < ·) (· < ·) (· < ·)]

/-- What is handed out later is greater. -/
theorem due_lt_of_mem_take (h : ∀ b ∈ s.take (count + 1), Successor.isLast b = false)
    (ha : a ∈ s.fresh.2.take count) : s.due < a := by
  induction count generalizing s with
  | zero => cases ha
  | succ count ih =>
    have hnext : s.due < s.fresh.2.due := Successor.lt_next (h s.due (List.mem_cons_self ..))
    rcases List.mem_cons.1 ha with rfl | ha
    · exact hnext
    · exact Trans.trans hnext (ih (fun b hb => h b (List.mem_cons_of_mem _ hb)) ha)

/-- What is handed out ascends, so that nothing is handed out twice. -/
theorem pairwise_take (h : ∀ b ∈ s.take count, Successor.isLast b = false) :
    (s.take count).Pairwise (· < ·) := by
  induction count generalizing s with
  | zero => exact .nil
  | succ count ih =>
    exact .cons (fun a ha => due_lt_of_mem_take h ha)
      (ih fun b hb => h b (List.mem_cons_of_mem _ hb))

end Ascending

theorem take_eq_range' (n count : Nat) : (⟨n⟩ : Supply Nat).take count = List.range' n count := by
  induction count generalizing n with
  | zero => rfl
  | succ count ih => exact congrArg (List.cons n) (ih (n + 1))

theorem pairwise_take_int (s : Supply Int) (count : Nat) : (s.take count).Pairwise (· < ·) :=
  pairwise_take fun _ _ => rfl

theorem pairwise_take_char {s : Supply Char} (h : ∀ c ∈ s.take count, c.toNat ≠ 0x10FFFF) :
    (s.take count).Pairwise (· < ·) :=
  pairwise_take fun c hc => decide_eq_false (h c hc)

/-- There are no characters between the two code points around the surrogates. -/
example : ((⟨Char.ofNat 0xD7FE⟩ : Supply Char).take 4).map Char.toNat =
    [0xD7FE, 0xD7FF, 0xE000, 0xE001] := by
  decide

end Supply

end RegexAutomata
