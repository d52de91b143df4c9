/-
Pointing left values at right values, one wish after another.

A wish is refused, or the two are paired already, or they are paired then (`Pairing.point`); what
comes of it in each case is a `Pairing.Pointing`.  A list of pairs is a map in either direction
(`Pairing.directions`), and a wish does to the list what it does to the two maps
(`Pairing.directions_point`).  So two maps that know nothing of each other answer like the list of
pairs, wish after wish, and hold what it holds (`Pairing.after_wishes`).
-/
import Mathlib.Data.List.Nodup
import RegexAutomata.Pairing
import RegexAutomata.Proofs.Directions
import RegexAutomata.Proofs.Graphs

namespace RegexAutomata

/-! ### One wish after another -/

section InTurn

variable {σ τ κ ω : Type}

/-- The answers to several calls, one after another, and what is kept after them. -/
def inTurn (call : σ → κ → ω × σ) (s : σ) : List κ → List ω × σ
  | [] => ([], s)
  | k :: ks =>
    let (answer, s) := call s k
    let (answers, s) := inTurn call s ks
    (answer :: answers, s)

/-- Where a call commutes with a view of what is kept, so do several. -/
theorem inTurn_map {call : σ → κ → ω × σ} {call' : τ → κ → ω × τ} (view : σ → τ)
    (hcall : ∀ s k, call' (view s) k = ((call s k).1, view (call s k).2)) (s : σ) (ks : List κ) :
    inTurn call' (view s) ks = ((inTurn call s ks).1, view (inTurn call s ks).2) := by
  induction ks generalizing s with
  | nil => rfl
  | cons k ks ih =>
    rw [inTurn, hcall]
    simp only [ih]
    rfl

end InTurn

namespace Directions

variable {α β : Type} {d d' : Directions α β}

/-- Two maps that are inverse to each other are known by one of them. -/
theorem Agree.eq_of_forward (h : d.Agree) (h' : d'.Agree) (hforward : d.forward = d'.forward) :
    d = d' := by
  have hbackward : d.backward = d'.backward := by
    funext b
    refine Option.ext fun a => ?_
    rw [← h, ← h', hforward]
  cases d
  cases d'
  cases hforward
  cases hbackward
  rfl

variable [DecidableEq α] [DecidableEq β]

/-- The answers to wishes, and the two maps after them. -/
def points (wishes : List (α × β)) : List (Except α Bool) × Directions α β :=
  inTurn (fun d wish => d.rebind wish.1 wish.2) empty wishes

end Directions

namespace Pairing

variable {α β : Type} [DecidableEq α] [DecidableEq β] {m : Pairing α β} {a x : α} {b y : β}

/-! ### The pairs as two maps -/

omit [DecidableEq α] [DecidableEq β] in
/-- Where no key occurs twice, an entry is found under its own. -/
theorem find?_key_eq_some_iff {κ : Type} [DecidableEq κ] {key : α × β → κ} {ps : List (α × β)}
    {p : α × β} {k : κ} (hnodup : (ps.map key).Nodup) :
    (ps.find? fun q => key q = k) = some p ↔ p ∈ ps ∧ key p = k := by
  constructor
  · intro hp
    have hkey := List.find?_some hp
    rw [decide_eq_true_eq] at hkey
    exact ⟨List.mem_of_find?_eq_some hp, hkey⟩
  · rintro ⟨hmem, hkey⟩
    have hsome : (ps.find? fun q => key q = k).isSome :=
      List.find?_isSome.2 ⟨p, hmem, decide_eq_true hkey⟩
    obtain ⟨q, hq⟩ := Option.isSome_iff_exists.1 hsome
    have hqkey := List.find?_some hq
    rw [decide_eq_true_eq] at hqkey
    -- no other entry has this key
    have hqp : q = p := List.inj_on_of_nodup_map hnodup (List.mem_of_find?_eq_some hq) hmem
      (hqkey.trans hkey.symm)
    rw [hq, hqp]

omit [DecidableEq β] in
theorem image_eq_some_iff : m.image a = some b ↔ (a, b) ∈ m.pairs := by
  rw [image, Option.map_eq_some_iff]
  constructor
  · rintro ⟨p, hp, rfl⟩
    obtain ⟨hmem, hkey⟩ := (find?_key_eq_some_iff m.lefts_nodup).1 hp
    rwa [← hkey]
  · exact fun hmem => ⟨(a, b), (find?_key_eq_some_iff m.lefts_nodup).2 ⟨hmem, rfl⟩, rfl⟩

omit [DecidableEq α] in
theorem preimage_eq_some_iff : m.preimage b = some a ↔ (a, b) ∈ m.pairs := by
  rw [preimage, Option.map_eq_some_iff]
  constructor
  · rintro ⟨p, hp, rfl⟩
    obtain ⟨hmem, hkey⟩ := (find?_key_eq_some_iff m.rights_nodup).1 hp
    rwa [← hkey]
  · exact fun hmem => ⟨(a, b), (find?_key_eq_some_iff m.rights_nodup).2 ⟨hmem, rfl⟩, rfl⟩

/-- The pairs as a map in either direction. -/
def directions (m : Pairing α β) : Directions α β := ⟨m.image, m.preimage⟩

theorem agree_directions (m : Pairing α β) : m.directions.Agree :=
  fun _ _ => image_eq_some_iff.trans preimage_eq_some_iff.symm

theorem directions_put (free : b ∉ m.rights) :
    (m.put a b free).directions = m.directions.insert a b := by
  have hnone : m.directions.backward b = none := preimage_eq_none_iff.2 free
  refine (agree_directions _).eq_of_forward ((agree_directions m).insert hnone) ?_
  funext x
  rw [Directions.forward_insert]
  exact InsertionOrder.find?_alter x

/-! ### What comes of a wish -/

/-- Point a left value at a right value.  The answer says whether something has changed, or whose
the right value is. -/
def point (m : Pairing α β) (a : α) (b : β) : Except α Bool × Pairing α β :=
  match m.rebind a b with
  | .unchanged => (.ok false, m)
  | .changed m' => (.ok true, m')
  | .refused owner => (.error owner, m)

/-- The right value is that of the left value already, or it belongs to another one, or nobody has
it. -/
theorem rebind_cases (m : Pairing α β) (a : α) (b : β) :
    (m.preimage b = some a ∧ m.rebind a b = .unchanged) ∨
    (∃ owner, m.preimage b = some owner ∧ owner ≠ a ∧ m.rebind a b = .refused owner) ∨
    ∃ free, m.preimage b = none ∧ m.rebind a b = .changed (m.put a b free) := by
  rw [rebind]
  split
  · rename_i owner howner
    by_cases heq : owner = a
    · rw [if_pos heq]
      exact Or.inl ⟨heq ▸ howner, rfl⟩
    · rw [if_neg heq]
      exact Or.inr (Or.inl ⟨owner, howner, heq, rfl⟩)
  · rename_i hfree
    exact Or.inr (Or.inr ⟨preimage_eq_none_iff.1 hfree, hfree, rfl⟩)

theorem point_cases (m : Pairing α β) (a : α) (b : β) :
    (m.preimage b = some a ∧ m.point a b = (.ok false, m)) ∨
    (∃ owner, m.preimage b = some owner ∧ owner ≠ a ∧ m.point a b = (.error owner, m)) ∨
    ∃ free, m.preimage b = none ∧ m.point a b = (.ok true, m.put a b free) := by
  rw [point]
  rcases m.rebind_cases a b with ⟨howner, h⟩ | ⟨owner, howner, hne, h⟩ | ⟨free, hfree, h⟩
  · exact Or.inl ⟨howner, by rw [h]⟩
  · exact Or.inr (Or.inl ⟨owner, howner, hne, by rw [h]⟩)
  · exact Or.inr (Or.inr ⟨free, hfree, by rw [h]⟩)

/-- A wish does to the pairs what it does to the two maps. -/
theorem directions_point (m : Pairing α β) (a : α) (b : β) :
    m.directions.rebind a b = ((m.point a b).1, (m.point a b).2.directions) := by
  have hback : m.directions.backward b = m.preimage b := rfl
  rw [Directions.rebind, hback]
  rcases m.point_cases a b with ⟨howner, h⟩ | ⟨owner, howner, hne, h⟩ | ⟨free, hfree, h⟩
  · rw [howner, h]
    exact if_pos rfl
  · rw [howner, h]
    exact if_neg hne
  · rw [hfree, h, directions_put]

/-- What comes of the wish to point `a` at `b`. -/
structure Pointing (m : Pairing α β) (a : α) (b : β) (answer : Except α Bool)
    (m' : Pairing α β) : Prop where
  refused_iff (owner : α) : answer = .error owner ↔ m.preimage b = some owner ∧ owner ≠ a
  unchanged_iff : answer = .ok false ↔ m.image a = some b
  changed_iff : answer = .ok true ↔ m.preimage b = none
  eq_of_ne : answer ≠ .ok true → m' = m
  image_eq (x : α) : answer = .ok true → m'.image x = if x = a then some b else m.image x
  preimage_eq (y : β) : answer = .ok true →
    m'.preimage y = if y = b then some a else if m.image a = some y then none else m.preimage y

theorem pointing_point (m : Pairing α β) (a : α) (b : β) :
    m.Pointing a b (m.point a b).1 (m.point a b).2 := by
  have himage : m.image a = some b ↔ m.preimage b = some a := m.agree_directions a b
  rcases m.point_cases a b with ⟨howner, h⟩ | ⟨owner, howner, hne, h⟩ | ⟨free, hfree, h⟩
  · rw [h]
    refine ⟨fun other => ⟨nofun, fun hother => ?_⟩, ⟨fun _ => himage.2 howner, fun _ => rfl⟩,
      ⟨nofun, fun hnone => ?_⟩, fun _ => rfl, nofun, nofun⟩
    · rw [howner] at hother
      exact absurd (Option.some.inj hother.1).symm hother.2
    · rw [howner] at hnone
      cases hnone
  · rw [h]
    refine ⟨fun other => ⟨fun heq => ?_, fun hother => ?_⟩, ⟨nofun, fun hsame => ?_⟩,
      ⟨nofun, fun hnone => ?_⟩, fun _ => rfl, nofun, nofun⟩
    · cases heq
      exact ⟨howner, hne⟩
    · rw [howner] at hother
      rw [Option.some.inj hother.1]
    · rw [himage, howner] at hsame
      exact absurd (Option.some.inj hsame) hne
    · rw [howner] at hnone
      cases hnone
  · rw [h]
    refine ⟨fun other => ⟨nofun, fun hother => ?_⟩, ⟨nofun, fun hsame => ?_⟩,
      ⟨fun _ => hfree, fun _ => rfl⟩, fun hno => absurd rfl hno, fun x _ => ?_, fun y _ => ?_⟩
    · rw [hfree] at hother
      cases hother.1
    · rw [himage, hfree] at hsame
      cases hsame
    · exact (congrFun (congrArg Directions.forward (directions_put free)) x).trans
        (Directions.forward_insert m.directions a x b)
    · exact (congrFun (congrArg Directions.backward (directions_put free)) y).trans
        (Directions.backward_insert m.directions a b y)

/-! ### After any wishes -/

/-- The answers to wishes, and the pairs after them. -/
def points (wishes : List (α × β)) : List (Except α Bool) × Pairing α β :=
  inTurn (fun m wish => m.point wish.1 wish.2) empty wishes

theorem directions_points (wishes : List (α × β)) :
    Directions.points wishes =
      ((points wishes).1, ((points wishes).2 : Pairing α β).directions) :=
  inTurn_map directions (fun m wish => m.directions_point wish.1 wish.2) empty wishes

/-- **After any wishes** a pair is found from its left value just if it is found from its right
value, and every further wish is answered, and does, what it should: a right value that belongs to
another left value stays with it; two values that are paired stay so; and else the two are paired,
the former right value of the left one is free, and all others keep what they have.  Two maps that
know nothing of each other have answered alike, hold the same pairs, and go on to do so. -/
theorem after_wishes (wishes : List (α × β)) :
    let m : Pairing α β := (points wishes).2
    let d : Directions α β := (Directions.points wishes).2
    (Directions.points wishes).1 = (points wishes).1 ∧
    (∀ a, d.forward a = m.image a) ∧ (∀ b, d.backward b = m.preimage b) ∧
    (∀ a b, d.rebind a b = ((m.point a b).1, (m.point a b).2.directions)) ∧
    (∀ a b, m.image a = some b ↔ m.preimage b = some a) ∧
    ∀ a b, m.Pointing a b (m.point a b).1 (m.point a b).2 := by
  intro m d
  have hpoints := directions_points wishes
  have hd : d = m.directions := congrArg Prod.snd hpoints
  exact ⟨congrArg Prod.fst hpoints, fun a => by rw [hd]; rfl, fun b => by rw [hd]; rfl,
    fun a b => by rw [hd, directions_point], m.agree_directions, m.pointing_point⟩

/-- A right value that was released belongs to who comes for it next, and is refused to the
former owner. -/
example : (points [(1, 'a'), (1, 'c'), (2, 'a'), (1, 'a')]).1 =
    [.ok true, .ok true, .ok true, .error 2] := by decide

end Pairing

end RegexAutomata
