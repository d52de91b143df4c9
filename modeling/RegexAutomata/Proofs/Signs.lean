/-
The signs of the operations, whatever has been asked for.

Signs are given one at a time, with a reason where that cannot be (`SymbolTable.trySet`), and all
can be taken back (`SignCall`).  A call either gives the operation its sign and touches no other,
or it is refused and changes nothing (`SymbolTable.rebind_cases`, `SignKeeper.Attempt`).

The table that carries its own invariants answers like one that is kept as two maps without any
(`Directions.trySet`), call after call (`SignKeeper.run_related`); so these are inverse to each
other, and every operation has a sign in them, after any sequence of calls.  What the next call
answers and leaves can be told for both from the signs before it (`SignKeeper.Heeds`,
`SignKeeper.signs_after`).
-/
import RegexAutomata.Proofs.Characters
import RegexAutomata.Proofs.Directions
import RegexAutomata.Regex.Parser

namespace RegexAutomata

/-! ### Calls -/

/-- What is asked of the keeper of the signs. -/
inductive SignCall where
  /-- Give an operation a sign, and say why if that cannot be. -/
  | trySet (op : Operator) (c : Char)
  /-- Give an operation a sign, and say whether it could be. -/
  | set (op : Operator) (c : Char)
  /-- Take all signs back. -/
  | reset

/-- What a call answers. -/
inductive SignAnswer where
  /-- The operation has its sign, or why not. -/
  | tried (outcome : Except SymbolError Unit)
  /-- Whether the operation has its sign. -/
  | set (accepted : Bool)
  /-- Nothing. -/
  | reset

/-- A way to keep the signs of the operations. -/
structure SignKeeper (σ : Type) where
  /-- The usual signs. -/
  usual : σ
  /-- The sign of an operation. -/
  sign : σ → Operator → Option Char
  /-- The operation that a character is the sign of. -/
  owner : σ → Char → Option Operator
  /-- Give an operation a sign, or say why that cannot be. -/
  trySet : σ → Operator → Char → Except SymbolError Unit × σ

namespace SignKeeper

variable {σ τ : Type} {k : SignKeeper σ} {k' : SignKeeper τ} {R : σ → τ → Prop} {s : σ} {s' : τ}

/-- The answer to a call, and the signs after it. -/
def perform (k : SignKeeper σ) (s : σ) : SignCall → SignAnswer × σ
  | .trySet op c => (.tried (k.trySet s op c).1, (k.trySet s op c).2)
  | .set op c => (.set (k.trySet s op c).1.isOk, (k.trySet s op c).2)
  | .reset => (.reset, k.usual)

/-- The answers to several calls, one after another, and the signs after them. -/
def run (k : SignKeeper σ) (s : σ) : List SignCall → List SignAnswer × σ
  | [] => ([], s)
  | call :: calls =>
    let (answer, s) := k.perform s call
    let (answers, s) := k.run s calls
    (answer :: answers, s)

/-- The answers to the calls from the usual signs on. -/
def answers (k : SignKeeper σ) (calls : List SignCall) : List SignAnswer := (k.run k.usual calls).1

/-- The signs after the calls from the usual signs on. -/
def after (k : SignKeeper σ) (calls : List SignCall) : σ := (k.run k.usual calls).2

theorem run_cons (k : SignKeeper σ) (s : σ) (call : SignCall) (calls : List SignCall) :
    k.run s (call :: calls) =
      ((k.perform s call).1 :: (k.run (k.perform s call).2 calls).1,
        (k.run (k.perform s call).2 calls).2) := rfl

theorem run_append (k : SignKeeper σ) (s : σ) (calls more : List SignCall) :
    k.run s (calls ++ more) =
      ((k.run s calls).1 ++ (k.run (k.run s calls).2 more).1,
        (k.run (k.run s calls).2 more).2) := by
  induction calls generalizing s with
  | nil => rfl
  | cons call calls ih =>
    rw [List.cons_append, run_cons, ih, run_cons]
    rfl

/-- The last call is performed on what the others leave. -/
theorem run_concat (k : SignKeeper σ) (calls : List SignCall) (call : SignCall) :
    k.answers (calls ++ [call]) = k.answers calls ++ [(k.perform (k.after calls) call).1] ∧
      k.after (calls ++ [call]) = (k.perform (k.after calls) call).2 := by
  have h := k.run_append k.usual calls [call]
  exact ⟨congrArg Prod.fst h, congrArg Prod.snd h⟩

theorem perform_related (husual : R k.usual k'.usual)
    (hset : ∀ {s s'} op c, R s s' →
      (k.trySet s op c).1 = (k'.trySet s' op c).1 ∧ R (k.trySet s op c).2 (k'.trySet s' op c).2)
    (h : R s s') (call : SignCall) :
    (k.perform s call).1 = (k'.perform s' call).1 ∧
      R (k.perform s call).2 (k'.perform s' call).2 := by
  cases call with
  | trySet op c =>
    obtain ⟨hanswer, hnext⟩ := hset op c h
    exact ⟨congrArg SignAnswer.tried hanswer, hnext⟩
  | set op c =>
    obtain ⟨hanswer, hnext⟩ := hset op c h
    exact ⟨congrArg (fun outcome : Except SymbolError Unit => SignAnswer.set outcome.isOk) hanswer,
      hnext⟩
  | reset => exact ⟨rfl, husual⟩

/-- Two keepers whose signs correspond answer alike, and their signs go on to correspond. -/
theorem run_related (husual : R k.usual k'.usual)
    (hset : ∀ {s s'} op c, R s s' →
      (k.trySet s op c).1 = (k'.trySet s' op c).1 ∧ R (k.trySet s op c).2 (k'.trySet s' op c).2)
    (h : R s s') (calls : List SignCall) :
    (k.run s calls).1 = (k'.run s' calls).1 ∧ R (k.run s calls).2 (k'.run s' calls).2 := by
  induction calls generalizing s s' with
  | nil => exact ⟨rfl, h⟩
  | cons call calls ih =>
    obtain ⟨hanswer, hnext⟩ := perform_related husual hset h call
    obtain ⟨hanswers, hlast⟩ := ih hnext
    exact ⟨congrArg₂ List.cons hanswer hanswers, hlast⟩

end SignKeeper

/-! ### Which characters may be signs -/

/-- Printable ASCII, but not a letter, a digit or a round bracket. -/
def IsSign (c : Char) : Prop :=
  0x21 ≤ c.toNat ∧ c.toNat ≤ 0x7E ∧ c.isAlphanum = false ∧ c ≠ '(' ∧ c ≠ ')'

theorem isSymbolChar_iff {c : Char} : isSymbolChar c = true ↔ IsSign c := by
  have hpunctuation : isPunctuation c = true ↔
      0x21 ≤ c.toNat ∧ c.toNat ≤ 0x7E ∧ c.isAlphanum = false := by
    rw [← Bool.not_eq_true, Operand.isAlphanum_iff]
    simp only [isPunctuation, Bool.or_eq_true, Bool.and_eq_true, decide_eq_true_eq]
    omega
  simp only [isSymbolChar, Bool.and_eq_true, bne_iff_ne, hpunctuation, IsSign, and_assoc]

/-! ### What comes of a call -/

namespace SignKeeper

variable {σ : Type} {k : SignKeeper σ} {calls : List SignCall}

/-- What comes of the wish to give an operation a sign. -/
structure Attempt (k : SignKeeper σ) (s : σ) (op : Operator) (c : Char)
    (outcome : Except SymbolError Unit) (s' : σ) : Prop where
  illegal_iff : outcome = .error (.illegal c) ↔ ¬IsSign c
  duplicate_iff (other : Operator) :
    outcome = .error (.duplicate c other) ↔ IsSign c ∧ other ≠ op ∧ k.sign s other = some c
  of_error (e : SymbolError) : outcome = .error e →
    s' = s ∧ (e = .illegal c ∨ ∃ other, e = .duplicate c other)
  ok_iff : outcome = .ok () ↔ IsSign c ∧ ∀ other, other ≠ op → k.sign s other ≠ some c
  sign_eq : outcome = .ok () → k.sign s' op = some c
  sign_of_ne (other : Operator) : outcome = .ok () → other ≠ op → k.sign s' other = k.sign s other
  former_free (former : Char) : outcome = .ok () → k.sign s op = some former → former ≠ c →
    k.owner s' former = none

/-- How the next call goes, whatever it is. -/
structure Heeds (k : SignKeeper σ) (calls : List SignCall) : Prop where
  /-- A wish is granted where it can be. -/
  attempt (op : Operator) (c : Char) :
    k.Attempt (k.after calls) op c (k.trySet (k.after calls) op c).1
      (k.trySet (k.after calls) op c).2
  /-- The answer is what has come of the wish. -/
  trySet (op : Operator) (c : Char) :
    k.answers (calls ++ [.trySet op c]) =
        k.answers calls ++ [.tried (k.trySet (k.after calls) op c).1] ∧
      k.after (calls ++ [.trySet op c]) = (k.trySet (k.after calls) op c).2
  /-- The answer is whether the wish has been granted. -/
  set (op : Operator) (c : Char) :
    k.answers (calls ++ [.set op c]) =
        k.answers calls ++ [.set (k.trySet (k.after calls) op c).1.isOk] ∧
      k.after (calls ++ [.set op c]) = (k.trySet (k.after calls) op c).2
  /-- The signs are the usual ones again. -/
  reset : k.answers (calls ++ [.reset]) = k.answers calls ++ [.reset] ∧
    (∀ op, k.sign (k.after (calls ++ [.reset])) op = some op.defaultSymbol) ∧
    ∀ c op, k.owner (k.after (calls ++ [.reset])) c = some op ↔ op.defaultSymbol = c

theorem heeds (hattempt : ∀ op c, k.Attempt (k.after calls) op c
      (k.trySet (k.after calls) op c).1 (k.trySet (k.after calls) op c).2)
    (hsign : ∀ op, k.sign k.usual op = some op.defaultSymbol)
    (howner : ∀ c op, k.owner k.usual c = some op ↔ op.defaultSymbol = c) : k.Heeds calls where
  attempt := hattempt
  trySet op c := k.run_concat calls (.trySet op c)
  set op c := k.run_concat calls (.set op c)
  reset := by
    obtain ⟨hanswer, hafter⟩ := k.run_concat calls .reset
    rw [hafter]
    exact ⟨hanswer, hsign, howner⟩

end SignKeeper

namespace SymbolTable

variable {t : SymbolTable} {op other : Operator} {c : Char}

theorem operatorFor_eq_ok_iff : t.operatorFor c = .ok op ↔ t.symbol op = c := by
  rw [← operator?_eq_some_iff, operatorFor]
  cases t.operator? c with
  | none => exact ⟨nofun, nofun⟩
  | some owner =>
    exact ⟨fun h => congrArg some (Except.ok.inj h), fun h => congrArg _ (Option.some.inj h)⟩

/-! ### Giving a sign -/

theorem symbol_put (t : SymbolTable) (op other : Operator) (c : Char)
    (legal : isSymbolChar c = true) (free : t.operator? c = none) :
    (t.put op c legal free).symbol other = if other = op then c else t.symbol other := by
  cases op <;> cases other <;> rfl

/-- A sign is refused because no operation may have it or because another one has it; or else the
operation has it then, and the others have what they had. -/
theorem rebind_cases (t : SymbolTable) (op : Operator) (c : Char) :
    (isSymbolChar c = false ∧ t.rebind op c = .error (.illegal c)) ∨
    (isSymbolChar c = true ∧
      ∃ other, other ≠ op ∧ t.symbol other = c ∧ t.rebind op c = .error (.duplicate c other)) ∨
    (isSymbolChar c = true ∧ (∀ other, other ≠ op → t.symbol other ≠ c) ∧
      ∃ t', t.rebind op c = .ok t' ∧
        ∀ other, t'.symbol other = if other = op then c else t.symbol other) := by
  by_cases hlegal : isSymbolChar c = true
  · refine Or.inr ?_
    rw [rebind, dif_pos hlegal]
    split
    · rename_i owner howner
      have hsymbol := operator?_eq_some_iff.1 howner
      by_cases heq : owner = op
      · subst heq
        -- the operation has the sign already
        refine Or.inr ⟨hlegal, fun other hne hother => hne ?_, t, if_pos rfl, fun other => ?_⟩
        · rw [operator?_eq_some_iff.2 hother] at howner
          exact Option.some.inj howner
        · split
          · rename_i hother
            rw [hother, hsymbol]
          · rfl
      · exact Or.inl ⟨hlegal, owner, heq, hsymbol, if_neg heq⟩
    · rename_i hfree
      exact Or.inr ⟨hlegal, fun other _ => symbol_ne_of_operator?_eq_none hfree other, _, rfl,
        fun other => symbol_put t op other c hlegal hfree⟩
  · exact Or.inl ⟨Bool.eq_false_iff.2 hlegal, dif_neg hlegal⟩

theorem symbol_of_rebind {t' : SymbolTable} (h : t.rebind op c = .ok t') (other : Operator) :
    t'.symbol other = if other = op then c else t.symbol other := by
  rcases t.rebind_cases op c with ⟨-, he⟩ | ⟨-, owner, -, -, he⟩ | ⟨-, -, t₁, he, hsymbol⟩
  · rw [he] at h
    cases h
  · rw [he] at h
    cases h
  · rw [he] at h
    cases h
    exact hsymbol other

/-- Give an operation a sign.  Where that cannot be, the table stays as it is. -/
def trySet (t : SymbolTable) (op : Operator) (c : Char) : Except SymbolError Unit × SymbolTable :=
  match t.rebind op c with
  | .ok t' => (.ok (), t')
  | .error e => (.error e, t)

end SymbolTable

namespace SignKeeper

/-- The signs in a table that carries its invariants. -/
def table : SignKeeper SymbolTable where
  usual := .standard
  sign t op := some (t.symbol op)
  owner := SymbolTable.operator?
  trySet := SymbolTable.trySet

theorem attempt_table (t : SymbolTable) (op : Operator) (c : Char) :
    table.Attempt t op c (t.trySet op c).1 (t.trySet op c).2 := by
  rcases t.rebind_cases op c with ⟨hclass, h⟩ | ⟨hclass, owner, hne, howner, h⟩ |
    ⟨hclass, hfree, t', h, hsymbol⟩
  · have hno : ¬IsSign c := fun hc => by
      rw [isSymbolChar_iff.2 hc] at hclass
      cases hclass
    rw [show t.trySet op c = (.error (.illegal c), t) by rw [SymbolTable.trySet, h]]
    refine ⟨⟨fun _ => hno, fun _ => rfl⟩, fun other => ⟨nofun, fun hc => absurd hc.1 hno⟩,
      fun e he => ?_, ⟨nofun, fun hc => absurd hc.1 hno⟩, nofun, nofun, nofun⟩
    cases he
    exact ⟨rfl, Or.inl rfl⟩
  · have hyes := isSymbolChar_iff.1 hclass
    rw [show t.trySet op c = (.error (.duplicate c owner), t) by rw [SymbolTable.trySet, h]]
    refine ⟨⟨nofun, fun hc => absurd hyes hc⟩, fun other => ⟨fun heq => ?_, fun hother => ?_⟩,
      fun e he => ?_, ⟨nofun, fun hc => absurd (congrArg some howner) (hc.2 owner hne)⟩, nofun,
      nofun, nofun⟩
    · cases heq
      exact ⟨hyes, hne, congrArg some howner⟩
    · -- no two operations have the same sign
      have hsame := SymbolTable.operator?_eq_some_iff.2 (Option.some.inj hother.2.2)
      rw [SymbolTable.operator?_eq_some_iff.2 howner] at hsame
      rw [Option.some.inj hsame]
    · cases he
      exact ⟨rfl, Or.inr ⟨owner, rfl⟩⟩
  · have hyes := isSymbolChar_iff.1 hclass
    rw [show t.trySet op c = (.ok (), t') by rw [SymbolTable.trySet, h]]
    have hnot : ∀ other, other ≠ op → table.sign t other ≠ some c :=
      fun other hne hother => hfree other hne (Option.some.inj hother)
    refine ⟨⟨nofun, fun hc => absurd hyes hc⟩,
      fun other => ⟨nofun, fun hother => absurd hother.2.2 (hnot other hother.2.1)⟩, nofun,
      ⟨fun _ => ⟨hyes, hnot⟩, fun _ => rfl⟩, fun _ => ?_, fun other _ hother => ?_,
      fun former _ hformer hmoved => ?_⟩
    · exact congrArg some ((hsymbol op).trans (if_pos rfl))
    · exact congrArg some ((hsymbol other).trans (if_neg hother))
    · have hold : t.symbol op = former := Option.some.inj hformer
      show t'.operator? former = none
      rcases hop : t'.operator? former with _ | other
      · rfl
      · -- whoever has the former sign now has had it before, beside `op`
        rw [SymbolTable.operator?_eq_some_iff, hsymbol] at hop
        by_cases hother : other = op
        · rw [if_pos hother] at hop
          exact absurd hop.symm hmoved
        · rw [if_neg hother, ← SymbolTable.operator?_eq_some_iff, ← hold,
            SymbolTable.operator?_symbol] at hop
          exact absurd (Option.some.inj hop).symm hother

end SignKeeper

/-! ### Two maps -/

namespace Directions

variable {d : Directions Operator Char} {t : SymbolTable}

/-- Every operation with its usual sign. -/
def usual : Directions Operator Char :=
  Operator.all.foldl (fun d op => (d.rebind op op.defaultSymbol).2) empty

/-- Give an operation a sign, and free its former one.  A sign that is no punctuation is refused
before one that is taken. -/
def trySet (d : Directions Operator Char) (op : Operator) (c : Char) :
    Except SymbolError Unit × Directions Operator Char :=
  if isSymbolChar c = true then
    match d.rebind op c with
    | (.ok _, d') => (.ok (), d')
    | (.error owner, d') => (.error (.duplicate c owner), d')
  else (.error (.illegal c), d)

/-- The two maps hold what the table holds. -/
structure Keeps (d : Directions Operator Char) (t : SymbolTable) : Prop where
  agree : d.Agree
  forward_eq (op : Operator) : d.forward op = some (t.symbol op)

theorem Keeps.backward_eq_some_iff {op : Operator} {c : Char} (h : d.Keeps t) :
    d.backward c = some op ↔ t.symbol op = c := by
  rw [← h.agree, h.forward_eq, Option.some.injEq]

theorem Keeps.backward_eq {c : Char} (h : d.Keeps t) : d.backward c = t.operator? c :=
  Option.ext fun op => by rw [h.backward_eq_some_iff, SymbolTable.operator?_eq_some_iff]

/-- There is one way to hold a table in two maps. -/
theorem Keeps.eq {d' : Directions Operator Char} (h : d.Keeps t) (h' : d'.Keeps t) : d' = d := by
  have hforward : d'.forward = d.forward :=
    funext fun op => (h'.forward_eq op).trans (h.forward_eq op).symm
  have hbackward : d'.backward = d.backward :=
    funext fun c => h'.backward_eq.trans h.backward_eq.symm
  cases d
  cases d'
  cases hforward
  cases hbackward
  rfl

theorem keeps_usual : usual.Keeps .standard where
  agree := ((agree_empty.rebind _ _).rebind _ _).rebind _ _
  forward_eq op := by cases op <;> rfl

/-- The two maps answer like the table, and go on to hold what it holds. -/
theorem Keeps.trySet (h : d.Keeps t) (op : Operator) (c : Char) :
    (d.trySet op c).1 = (t.trySet op c).1 ∧ (d.trySet op c).2.Keeps (t.trySet op c).2 := by
  rcases t.rebind_cases op c with ⟨hclass, hrebind⟩ | ⟨hclass, owner, hne, howner, hrebind⟩ |
    ⟨hclass, hfree, t', hrebind, hsymbol⟩
  · rw [show t.trySet op c = (.error (.illegal c), t) by rw [SymbolTable.trySet, hrebind],
      Directions.trySet, if_neg (Bool.eq_false_iff.1 hclass)]
    exact ⟨rfl, h⟩
  · have hback : d.rebind op c = (.error owner, d) := by
      rw [rebind, h.backward_eq_some_iff.2 howner]
      exact if_neg hne
    rw [show t.trySet op c = (.error (.duplicate c owner), t) by rw [SymbolTable.trySet, hrebind],
      Directions.trySet, if_pos hclass, hback]
    exact ⟨rfl, h⟩
  · rw [show t.trySet op c = (.ok (), t') by rw [SymbolTable.trySet, hrebind], Directions.trySet,
      if_pos hclass]
    rcases hback : d.backward c with _ | owner
    · have hnew : d.rebind op c = (.ok true, d.insert op c) := by rw [rebind, hback]
      rw [hnew]
      refine ⟨rfl, h.agree.insert hback, fun other => ?_⟩
      rw [forward_insert, hsymbol, h.forward_eq]
      split
      · rfl
      · rfl
    · -- the operation has the sign already
      have howner := h.backward_eq_some_iff.1 hback
      have hsame : owner = op := by_contra fun hne => hfree owner hne howner
      subst hsame
      have hold : d.rebind owner c = (.ok false, d) := by
        rw [rebind, hback]
        exact if_pos rfl
      rw [hold]
      refine ⟨rfl, h.agree, fun other => ?_⟩
      rw [hsymbol, h.forward_eq]
      split
      · rename_i hother
        rw [hother, howner]
      · rfl

end Directions

/-! ### After any calls -/

namespace SignKeeper

/-- The signs in two maps. -/
def maps : SignKeeper (Directions Operator Char) where
  usual := .usual
  sign := Directions.forward
  owner := Directions.backward
  trySet := Directions.trySet

/-- What comes of a wish does not depend on how the signs are kept. -/
theorem attempt_maps {d : Directions Operator Char} {t : SymbolTable} (h : d.Keeps t)
    (op : Operator) (c : Char) : maps.Attempt d op c (d.trySet op c).1 (d.trySet op c).2 := by
  obtain ⟨houtcome, hnext⟩ := h.trySet op c
  have hattempt := attempt_table t op c
  have hsign : maps.sign d = table.sign t := funext h.forward_eq
  have hsign' : maps.sign (d.trySet op c).2 = table.sign (t.trySet op c).2 :=
    funext hnext.forward_eq
  have howner' : maps.owner (d.trySet op c).2 = table.owner (t.trySet op c).2 :=
    funext fun _ => hnext.backward_eq
  rw [houtcome]
  exact
    { illegal_iff := hattempt.illegal_iff
      duplicate_iff := hsign ▸ hattempt.duplicate_iff
      of_error := fun e he => by
        obtain ⟨hsame, hreason⟩ := hattempt.of_error e he
        rw [hsame] at hnext
        exact ⟨h.eq hnext, hreason⟩
      ok_iff := hsign ▸ hattempt.ok_iff
      sign_eq := hsign' ▸ hattempt.sign_eq
      sign_of_ne := hsign' ▸ hsign ▸ hattempt.sign_of_ne
      former_free := howner' ▸ hsign ▸ hattempt.former_free }

theorem maps_keep (calls : List SignCall) :
    maps.answers calls = table.answers calls ∧ (maps.after calls).Keeps (table.after calls) :=
  run_related (R := Directions.Keeps) Directions.keeps_usual
    (fun op c h => Directions.Keeps.trySet h op c) Directions.keeps_usual calls

theorem heeds_table (calls : List SignCall) : table.Heeds calls :=
  heeds (attempt_table _) (fun op => by cases op <;> rfl) fun c op =>
    SymbolTable.operator?_eq_some_iff.trans (by cases op <;> rfl)

theorem heeds_maps (calls : List SignCall) : maps.Heeds calls :=
  heeds (attempt_maps (maps_keep calls).2) (fun op => by cases op <;> rfl) fun c op =>
    Directions.keeps_usual.backward_eq_some_iff.trans (by cases op <;> rfl)

/-- After any calls every operation has a sign of its own in both maps, which is a character that
may be one and never an operand.  The next call gives a sign or refuses to as it should, answers
accordingly, or takes all signs back. -/
theorem signs_after (calls : List SignCall) :
    maps.answers calls = table.answers calls ∧
    (∀ op, (maps.after calls).forward op = some ((table.after calls).symbol op)) ∧
    (∀ c op, (maps.after calls).backward c = some op ↔ (table.after calls).symbol op = c) ∧
    (∀ c op, (table.after calls).operatorFor c = .ok op ↔ (table.after calls).symbol op = c) ∧
    (∀ op, IsSign ((table.after calls).symbol op) ∧
      Operand.ofChar? ((table.after calls).symbol op) = none) ∧
    (∀ op, (maps.after []).forward op = some op.defaultSymbol) ∧
    maps.Heeds calls ∧ table.Heeds calls := by
  obtain ⟨hanswers, hkeeps⟩ := maps_keep calls
  refine ⟨hanswers, hkeeps.forward_eq, fun c op => hkeeps.backward_eq_some_iff,
    fun c op => SymbolTable.operatorFor_eq_ok_iff, fun op => ⟨?_, ?_⟩, fun op => ?_,
    heeds_maps calls, heeds_table calls⟩
  · exact isSymbolChar_iff.1 (SymbolTable.isSymbolChar_symbol _ op)
  · exact SymbolTable.ofChar?_symbol _ op
  · cases op <;> rfl

/-- Concatenation and union exchange their signs with the help of a third one, which is free again
then; what cannot be is refused on the way, and in the end all is taken back. -/
theorem signs_after_exchange :
    let calls : List SignCall := [.trySet .concat '+', .set .star 'a', .set .union '&',
      .trySet .concat '+', .set .union '|', .trySet .star '(']
    maps.answers calls = [.tried (.error (.duplicate '+' .union)), .set false, .set true,
      .tried (.ok ()), .set true, .tried (.error (.illegal '('))] ∧
    (maps.after calls).forward .concat = some '+' ∧
    (maps.after calls).forward .union = some '|' ∧
    (maps.after calls).backward '&' = none ∧
    (table.after calls).operatorFor '|' = .ok .union ∧
    maps.answers (calls ++ [.reset]) = maps.answers calls ++ [.reset] ∧
    (maps.after (calls ++ [.reset])).forward .concat = some '|' := by
  intro calls
  obtain ⟨-, hforward, -, howner, -, -, hmaps, -⟩ := signs_after calls
  have hunion : (maps.after calls).forward .union = some '|' := rfl
  obtain ⟨hanswer, husual, -⟩ := hmaps.reset
  refine ⟨rfl, rfl, hunion, rfl, (howner '|' .union).2 ?_, hanswer, husual .concat⟩
  exact Option.some.inj ((hforward .union).symm.trans hunion)

end SignKeeper

end RegexAutomata
