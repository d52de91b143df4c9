/-
Round brackets in a text.

* `unwrap?` takes off the first and the last character when they are a pair of
  brackets that belong together, `stripOuter` does so where it can, and
  `stripAll` does so as often as it can;
* `bracketPairs` lists the pairs that belong together, an inner pair before
  every pair around it;
* `erasePair` deletes the two characters of a pair.

None of them asks for balanced brackets; a closing bracket without a partner
belongs to no pair.
-/

namespace RegexAutomata.Text

/-- Whether a text ends in a closing bracket, and the innermost of `depth`
brackets that are open before it is still open there. -/
def closesAtEnd : (depth : Nat) → List Char → Bool
  | _, [] => false
  | _, [c] => c = ')'
  | depth, c :: d :: cs =>
    if c = '(' then closesAtEnd (depth + 1) (d :: cs)
    else if c = ')' then 1 < depth && closesAtEnd (depth - 1) (d :: cs)
    else closesAtEnd depth (d :: cs)

/-- The text between its first and its last character, if the first is an
opening bracket and the last is the one that closes it. -/
def unwrap? : List Char → Option (List Char)
  | [] => none
  | c :: cs => if c = '(' && closesAtEnd 1 cs then some cs.dropLast else none

theorem length_of_unwrap? {cs inner : List Char} (h : unwrap? cs = some inner) :
    inner.length + 2 = cs.length := by
  cases cs with
  | nil => cases h
  | cons c cs =>
    simp only [unwrap?] at h
    split at h
    · rename_i hc
      cases h
      cases cs with
      | nil => simp [closesAtEnd] at hc
      | cons d cs => simp
    · cases h

/-- The text without its outer brackets, if they belong together. -/
def stripOuter (text : String) : String :=
  match unwrap? text.toList with
  | some inner => String.ofList inner
  | none => text

/-- Take off outer brackets as often as possible; `start`, the position of
the first character, moves along. -/
def stripAll (start : Nat) (cs : List Char) : Nat × List Char :=
  match h : unwrap? cs with
  | some inner => stripAll (start + 1) inner
  | none => (start, cs)
termination_by cs.length
decreasing_by have := length_of_unwrap? h; omega

/-! ### Pairs -/

/-- The pairs that are closed in a text, given its position and the positions
of the brackets that are open before it, the innermost first. -/
def bracketPairsFrom : (pos : Nat) → (opened : List Nat) → List Char → List (Nat × Nat)
  | _, _, [] => []
  | pos, opened, '(' :: cs => bracketPairsFrom (pos + 1) (pos :: opened) cs
  | pos, o :: opened, ')' :: cs => (o, pos) :: bracketPairsFrom (pos + 1) opened cs
  | pos, opened, _ :: cs => bracketPairsFrom (pos + 1) opened cs

/-- The positions of the brackets that belong together, in the order in which
they are closed. -/
def bracketPairs (cs : List Char) : List (Nat × Nat) := bracketPairsFrom 0 [] cs

/-- Delete the two characters at the positions of a pair. -/
def erasePair (cs : List Char) (pair : Nat × Nat) : List Char :=
  (cs.eraseIdx pair.2).eraseIdx pair.1

theorem snd_lt_of_mem_bracketPairsFrom {pos : Nat} {opened : List Nat} {cs : List Char}
    {pair : Nat × Nat} (h : pair ∈ bracketPairsFrom pos opened cs) :
    pair.2 < pos + cs.length := by
  fun_induction bracketPairsFrom pos opened cs with
  | case1 => cases h
  | case2 pos opened cs ih =>
    have := ih h
    simp only [List.length_cons]
    omega
  | case3 pos o opened cs ih =>
    simp only [List.length_cons]
    rcases List.mem_cons.1 h with rfl | h
    · simp only
      omega
    · have := ih h
      omega
  | case4 pos opened c cs _ _ ih =>
    have := ih h
    simp only [List.length_cons]
    omega

theorem snd_lt_of_mem_bracketPairs {cs : List Char} {pair : Nat × Nat}
    (h : pair ∈ bracketPairs cs) : pair.2 < cs.length := by
  have := snd_lt_of_mem_bracketPairsFrom h
  omega

theorem length_erasePair_lt {cs : List Char} {pair : Nat × Nat} (h : pair ∈ bracketPairs cs) :
    (erasePair cs pair).length < cs.length := by
  have hlt := snd_lt_of_mem_bracketPairs h
  have h₁ : (cs.eraseIdx pair.2).length = cs.length - 1 := by
    rw [List.length_eraseIdx, if_pos hlt]
  have h₂ : (erasePair cs pair).length ≤ (cs.eraseIdx pair.2).length :=
    List.length_eraseIdx_le _ _
  omega

end RegexAutomata.Text
