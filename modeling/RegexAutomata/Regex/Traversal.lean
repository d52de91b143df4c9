/-
The nodes of an expression, one after another.

Both orders are read off a stack of what is still to be visited.  In
pre-order a node comes before its children, and its children take its place on
the stack.  In post-order a node comes after them: it stays on the stack below
its children, with a mark that says that they have been put there.
-/
import RegexAutomata.Regex.Basic

namespace RegexAutomata.Regex

/-- The nodes of the expressions on a stack, each before its children. -/
def preOrderOf : List Regex → List Regex
  | [] => []
  | e :: stack => e :: preOrderOf (e.children ++ stack)
termination_by stack => totalSize stack
decreasing_by
  rw [totalSize_append, totalSize, size_eq_children e]
  omega

/-- The nodes, each before its children. -/
def preOrder (e : Regex) : List Regex := preOrderOf [e]

/-! ### Post-order -/

/-- An expression on the stack of a post-order visit. -/
structure Pending where
  /-- The expression. -/
  expr : Regex
  /-- Whether its children have been put on the stack. -/
  expanded : Bool

/-- An expression whose children have not been put on the stack. -/
def fresh (e : Regex) : Pending := ⟨e, false⟩

/-- The number of steps that a stack takes: one for an entry whose children
have been put there, and two for every node of any other. -/
def work : List Pending → Nat
  | [] => 0
  | ⟨e, expanded⟩ :: stack => (if expanded then 1 else 2 * e.size) + work stack

theorem work_fresh_append (es : List Regex) (stack : List Pending) :
    work (es.map fresh ++ stack) = 2 * totalSize es + work stack := by
  induction es with
  | nil => simp [totalSize]
  | cons e es ih =>
    simp only [List.map_cons, List.cons_append, fresh, work, totalSize, ih]
    simp
    omega

/-- The nodes of the expressions on a stack, each after its children. -/
def postOrderOf : List Pending → List Regex
  | [] => []
  | ⟨e, true⟩ :: stack => e :: postOrderOf stack
  | ⟨e, false⟩ :: stack => postOrderOf (e.children.map fresh ++ ⟨e, true⟩ :: stack)
termination_by stack => work stack
decreasing_by
  · simp [work]
  · rw [work_fresh_append, work, work, size_eq_children e]
    simp
    omega

/-- The nodes, each after its children. -/
def postOrder (e : Regex) : List Regex := postOrderOf [fresh e]

end RegexAutomata.Regex
