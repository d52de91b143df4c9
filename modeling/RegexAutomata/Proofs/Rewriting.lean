/-
Writing several transitions, and folding states into one another.

`written?` tells which of several rewrites is the last one between two states;
`label?_write` says that this is the label after all of them are written.  To
fold a state into another one is to take it away and to write its transitions
anew (`merge_eq`).

The automaton of an expression is made by such changes too: what joins the parts
of an expression is written between two new states.  `Built` has one case for
each operation.

None of the changes disturbs the agreement of the two ends of every transition
(`WellLinked.apply`, `WellLinked.built`).
-/
import RegexAutomata.Automaton.Request
import RegexAutomata.Elimination
import RegexAutomata.Proofs.Transitions
import RegexAutomata.Thompson

namespace RegexAutomata.Automaton

variable {a : Automaton} {p q keep absorb : State} {label : String} {ws : List Rewrite}

/-- The label that the last of several rewrites puts between two states. -/
def written? : List Rewrite → State → State → Option String
  | [], _, _ => none
  | w :: ws, p, q =>
    (written? ws p q).or (if w.source = p ∧ w.target = q then some w.label else none)

theorem mem_of_written? (h : written? ws p q = some label) : ⟨p, q, label⟩ ∈ ws := by
  induction ws with
  | nil => cases h
  | cons w ws ih =>
    rw [written?, Option.or_eq_some_iff] at h
    rcases h with h | ⟨-, h⟩
    · exact List.mem_cons_of_mem w (ih h)
    · split at h
      · rename_i hw
        obtain ⟨rfl, rfl⟩ := hw
        cases h
        exact List.mem_cons_self
      · simp at h

theorem written?_eq_none_iff :
    written? ws p q = none ↔ ∀ w ∈ ws, ¬(w.source = p ∧ w.target = q) := by
  induction ws with
  | nil => simp [written?]
  | cons w ws ih =>
    rw [written?, Option.or_eq_none_iff, ih, List.forall_mem_cons]
    by_cases hw : w.source = p ∧ w.target = q <;> simp [hw]

/-- Where no pair of states occurs twice, all that is written stays. -/
theorem written?_eq_some_iff (h : (ws.map fun w => (w.source, w.target)).Nodup) :
    written? ws p q = some label ↔ ⟨p, q, label⟩ ∈ ws := by
  constructor
  · exact mem_of_written?
  · intro hmem
    rcases hw : written? ws p q with _ | other
    · exact absurd ⟨rfl, rfl⟩ (written?_eq_none_iff.1 hw _ hmem)
    · -- both stand for the same pair of states
      have heq := List.inj_on_of_nodup_map h hmem (mem_of_written? hw) rfl
      rw [Rewrite.mk.injEq] at heq
      rw [heq.2.2]

/-- What is written between two states, where nothing is written twice. -/
theorem written?_eq {written : Option String}
    (h : ∀ label, ⟨p, q, label⟩ ∈ ws ↔ written = some label) : written? ws p q = written := by
  rcases hw : written? ws p q with _ | label
  · rcases written with _ | label
    · rfl
    · exact absurd ⟨rfl, rfl⟩ (written?_eq_none_iff.1 hw _ ((h label).2 rfl))
  · exact ((h label).1 (mem_of_written? hw)).symm

/-! ### Writing -/

theorem write_cons (a : Automaton) (w : Rewrite) (ws : List Rewrite) :
    a.write (w :: ws) = (a.connect w.source w.target w.label).write ws := rfl

theorem write_append (a : Automaton) (vs ws : List Rewrite) :
    a.write (vs ++ ws) = (a.write vs).write ws := List.foldl_append

@[simp] theorem initial_write (a : Automaton) (ws : List Rewrite) :
    (a.write ws).initial = a.initial := by
  induction ws generalizing a with
  | nil => rfl
  | cons w ws ih => rw [write_cons, ih, initial_connect]

@[simp] theorem final_write (a : Automaton) (ws : List Rewrite) :
    (a.write ws).final = a.final := by
  induction ws generalizing a with
  | nil => rfl
  | cons w ws ih => rw [write_cons, ih, final_connect]

@[simp] theorem nextState_write (a : Automaton) (ws : List Rewrite) :
    (a.write ws).nextState = a.nextState := by
  induction ws generalizing a with
  | nil => rfl
  | cons w ws ih => rw [write_cons, ih, nextState_connect]

@[simp] theorem contains_write (a : Automaton) (ws : List Rewrite) (x : State) :
    (a.write ws).contains x = a.contains x := by
  induction ws generalizing a with
  | nil => rfl
  | cons w ws ih => rw [write_cons, ih, contains_connect]

@[simp] theorem states_write (a : Automaton) (ws : List Rewrite) :
    (a.write ws).states = a.states := by
  have hsize : (a.write ws).rows.size = a.rows.size := nextState_write a ws
  rw [states, states, hsize]
  exact List.filter_congr fun x _ => contains_write a ws x

/-- What is written last between two states is what joins them afterwards. -/
theorem label?_write (h : ∀ w ∈ ws, a.contains w.source = true ∧ a.contains w.target = true)
    (x y : State) : (a.write ws).label? x y = (written? ws x y).or (a.label? x y) := by
  induction ws generalizing a with
  | nil => rfl
  | cons w ws ih =>
    obtain ⟨⟨hs, ht⟩, hws⟩ := List.forall_mem_cons.1 h
    have hws' : ∀ v ∈ ws, (a.connect w.source w.target w.label).contains v.source = true ∧
        (a.connect w.source w.target w.label).contains v.target = true := fun v hv => by
      rw [contains_connect, contains_connect]
      exact hws v hv
    -- what is written later counts first, then this transition, then the old one
    rw [write_cons, ih hws', label?_connect hs ht, written?, Option.or_assoc]
    congr 1
    by_cases hxy : x = w.source ∧ y = w.target
    · rw [if_pos hxy, if_pos ⟨hxy.1.symm, hxy.2.symm⟩]
      rfl
    · rw [if_neg hxy, if_neg fun hw => hxy ⟨hw.1.symm, hw.2.symm⟩]
      rfl

/-- Transitions whose states are all there, and that take the place of no
other. -/
structure Fits (a : Automaton) (ws : List Rewrite) : Prop where
  mem : ∀ w ∈ ws, a.contains w.source = true ∧ a.contains w.target = true
  free : ∀ w ∈ ws, a.label? w.source w.target = none
  distinct : (ws.map fun w => (w.source, w.target)).Nodup

theorem WellLinked.write (h : a.WellLinked) (ws : List Rewrite) : (a.write ws).WellLinked := by
  induction ws generalizing a with
  | nil => exact h
  | cons w ws ih => exact ih (h.connect w.source w.target w.label)

/-! ### Roles -/

theorem WellLinked.setInitial (h : a.WellLinked) (q : Option State) :
    (a.setInitial q).WellLinked := by
  rw [Automaton.setInitial]
  split
  · rename_i hq
    refine ⟨h.agree, fun x hx => ?_, h.final_mem⟩
    replace hx : q = some x := hx
    rwa [hx] at hq
  · exact h

theorem WellLinked.setFinal (h : a.WellLinked) (q : Option State) :
    (a.setFinal q).WellLinked := by
  rw [Automaton.setFinal]
  split
  · rename_i hq
    refine ⟨h.agree, h.initial_mem, fun x hx => ?_⟩
    replace hx : q = some x := hx
    rwa [hx] at hq
  · exact h

/-! ### Folding a state into another one -/

/-- The transitions of `absorb`, as they are written for `keep`. -/
def moved (keep absorb : State) (links : Links) : List Rewrite :=
  (links.out.entries.map fun e => ⟨keep, if e.1 = absorb then keep else e.1, e.2⟩) ++
    (links.into.entries.filter fun e => e.1 ≠ absorb).map fun e => ⟨e.1, keep, e.2⟩

/-- A state with another one in the place of the absorbed one. -/
def redirect (keep absorb x : State) : State := if x = absorb then keep else x

@[simp] theorem redirect_absorb (keep absorb : State) : redirect keep absorb absorb = keep :=
  if_pos rfl

theorem redirect_of_ne {x : State} (hx : x ≠ absorb) : redirect keep absorb x = x := if_neg hx

/-- What is written are the transitions of the absorbed state, with the other one in its
place. -/
theorem WellLinked.mem_moved_iff (h : a.WellLinked) {links : Links}
    (ha : a.row? absorb = some links) {x y : State} :
    ⟨x, y, label⟩ ∈ moved keep absorb links ↔
      ∃ p q, a.label? p q = some label ∧ (p = absorb ∨ q = absorb) ∧
        redirect keep absorb p = x ∧ redirect keep absorb q = y := by
  have hout : ∀ z text, (z, text) ∈ links.out.entries ↔ a.label? absorb z = some text := by
    intro z text
    rw [label?, ha, Option.bind_some, NatMap.mem_entries_iff]
  have hinto : ∀ z text, (z, text) ∈ links.into.entries ↔ a.label? z absorb = some text := by
    intro z text
    rw [h.agree, entering?, ha, Option.bind_some, NatMap.mem_entries_iff]
  rw [moved, List.mem_append, List.mem_map, List.mem_map]
  constructor
  · rintro (⟨⟨z, text⟩, hz, heq⟩ | ⟨⟨z, text⟩, hz, heq⟩)
    · cases heq
      exact ⟨absorb, z, (hout z _).1 hz, Or.inl rfl, redirect_absorb _ _, rfl⟩
    · cases heq
      obtain ⟨hz, hne⟩ := List.mem_filter.1 hz
      exact ⟨z, absorb, (hinto z _).1 hz, Or.inr rfl, redirect_of_ne (of_decide_eq_true hne),
        redirect_absorb _ _⟩
  · rintro ⟨p, q, hl, hor, rfl, rfl⟩
    by_cases hp : p = absorb
    · subst hp
      refine Or.inl ⟨(q, label), (hout q label).2 hl, ?_⟩
      rw [redirect_absorb]
      rfl
    · obtain rfl : q = absorb := hor.resolve_left hp
      refine Or.inr ⟨(p, label), List.mem_filter.2 ⟨(hinto p label).2 hl, decide_eq_true hp⟩, ?_⟩
      rw [redirect_absorb, redirect_of_ne hp]

theorem merge_eq {links : Links} (ha : a.row? absorb = some links) (hne : keep ≠ absorb)
    (hk : a.contains keep = true) :
    a.merge keep absorb =
      { (a.removeState absorb).write (moved keep absorb links) with
        initial := if a.initial = some absorb then some keep else a.initial
        final := if a.final = some absorb then some keep else a.final } := by
  have hcontains : a.contains absorb = true := by
    rw [contains, ha]
    rfl
  have hcond : ¬((decide (keep = absorb) || !a.contains keep) = true) := by
    rw [hk]
    simp [hne]
  rw [merge, ha]
  simp only [if_neg hcond]
  -- both passes over the links of `absorb` write a list of transitions
  have hwrite : ∀ b : Automaton,
      (links.into.entries.filter fun e => e.1 ≠ absorb).foldl
          (fun b e => b.connect e.1 keep e.2)
          ((links.out.entries.map fun e => (if e.1 = absorb then keep else e.1, e.2)).foldl
            (fun b e => b.connect keep e.1 e.2) b) =
        b.write (moved keep absorb links) := fun b => by
    rw [moved, write_append, write, write, List.foldl_map, List.foldl_map, List.foldl_map]
  rw [hwrite]
  congr 1
  · by_cases h : a.initial = some absorb
    · rw [if_pos h, if_pos h]
    · rw [if_neg h, if_neg h, initial_write, initial_removeState a absorb hcontains, if_neg h]
  · by_cases h : a.final = some absorb
    · rw [if_pos h, if_pos h]
    · rw [if_neg h, if_neg h, final_write, final_removeState a absorb hcontains, if_neg h]

/-- A fusion that cannot be made changes nothing. -/
theorem merge_eq_self (h : a.row? absorb = none ∨ keep = absorb ∨ a.contains keep = false) :
    a.merge keep absorb = a := by
  rw [merge]
  split
  · rfl
  · rename_i links ha
    rcases h with h | h | h
    · rw [ha] at h
      simp at h
    · rw [if_pos (by simp [h])]
    · rw [if_pos (by simp [h])]

section Merge

variable (hne : keep ≠ absorb) (hk : a.contains keep = true) (ha : a.contains absorb = true)
include hne hk ha

theorem contains_merge (x : State) :
    (a.merge keep absorb).contains x = if x = absorb then false else a.contains x := by
  obtain ⟨links, hlinks⟩ := Option.isSome_iff_exists.1 ha
  rw [merge_eq hlinks hne hk]
  show ((a.removeState absorb).write (moved keep absorb links)).contains x = _
  rw [contains_write, contains_removeState]

theorem nextState_merge : (a.merge keep absorb).nextState = a.nextState := by
  obtain ⟨links, hlinks⟩ := Option.isSome_iff_exists.1 ha
  rw [merge_eq hlinks hne hk]
  show ((a.removeState absorb).write (moved keep absorb links)).nextState = _
  rw [nextState_write, nextState_removeState]

theorem roles_merge :
    (a.merge keep absorb).initial = (if a.initial = some absorb then some keep else a.initial) ∧
      (a.merge keep absorb).final = if a.final = some absorb then some keep else a.final := by
  obtain ⟨links, hlinks⟩ := Option.isSome_iff_exists.1 ha
  rw [merge_eq hlinks hne hk]
  exact ⟨rfl, rfl⟩

omit ha in
/-- What is written for the absorbed state is written between states that stay. -/
theorem WellLinked.contains_of_mem_moved (h : a.WellLinked) {links : Links}
    (hlinks : a.row? absorb = some links) {w : Rewrite} (hw : w ∈ moved keep absorb links) :
    (a.removeState absorb).contains w.source = true ∧
      (a.removeState absorb).contains w.target = true := by
  have hstays : ∀ x, a.contains x = true →
      (a.removeState absorb).contains (redirect keep absorb x) = true := by
    intro x hx
    by_cases hxa : x = absorb
    · rw [hxa, redirect_absorb, contains_removeState, if_neg hne, hk]
    · rw [redirect_of_ne hxa, contains_removeState, if_neg hxa, hx]
  obtain ⟨p, q, hl, -, hp, hq⟩ := (h.mem_moved_iff hlinks).1 hw
  rw [← hp, ← hq]
  exact ⟨hstays p (h.contains_of_label? hl).1, hstays q (h.contains_of_label? hl).2⟩

omit ha in
/-- What is written last for the absorbed state is what joins two states afterwards. -/
theorem WellLinked.label?_merge_eq (h : a.WellLinked) {links : Links}
    (hlinks : a.row? absorb = some links) (x y : State) :
    (a.merge keep absorb).label? x y =
      (written? (moved keep absorb links) x y).or
        (if x = absorb ∨ y = absorb then none else a.label? x y) := by
  rw [merge_eq hlinks hne hk, ← label?_removeState h]
  exact label?_write (fun w hw => h.contains_of_mem_moved hne hk hlinks hw) x y

section Free

variable (h : a.WellLinked) (henter : ∀ x, a.label? x absorb = none)
include h henter

omit hne hk ha in
/-- What is written for the state that is kept, where nothing enters the other
one. -/
theorem moved_eq {links : Links} (hlinks : a.row? absorb = some links) :
    moved keep absorb links = links.out.entries.map fun e => ⟨keep, e.1, e.2⟩ := by
  have hinto : links.into.entries = [] := by
    rw [List.eq_nil_iff_forall_not_mem]
    rintro ⟨x, text⟩ hx
    have hnone := henter x
    rw [h.agree, entering?, hlinks, Option.bind_some, NatMap.mem_entries_iff.1 hx] at hnone
    simp at hnone
  rw [moved, hinto, List.filter_nil, List.map_nil, List.append_nil]
  refine List.map_congr_left fun e he => ?_
  rw [if_neg]
  intro hea
  have hl : a.label? absorb e.1 = some e.2 := by
    rw [label?, hlinks]
    exact NatMap.mem_entries_iff.1 he
  rw [hea, henter] at hl
  simp at hl

omit hne hk ha in
theorem mem_moved_iff {links : Links} (hlinks : a.row? absorb = some links) {x y : State} :
    ⟨x, y, label⟩ ∈ moved keep absorb links ↔ x = keep ∧ a.label? absorb y = some label := by
  rw [moved_eq h henter hlinks, List.mem_map, label?, hlinks, Option.bind_some,
    ← NatMap.mem_entries_iff]
  constructor
  · rintro ⟨⟨z, text⟩, hz, heq⟩
    simp only [Rewrite.mk.injEq] at heq
    obtain ⟨rfl, rfl, rfl⟩ := heq
    exact ⟨rfl, hz⟩
  · rintro ⟨rfl, hl⟩
    exact ⟨(y, label), hl, rfl⟩

omit ha in
/-- Where nothing leaves the one state and nothing enters the other, nothing is
written over when the first absorbs the second. -/
theorem fits_moved {links : Links} (hlinks : a.row? absorb = some links)
    (hleave : ∀ y, a.label? keep y = none) :
    Fits (a.removeState absorb) (moved keep absorb links) := by
  refine ⟨fun w hw => h.contains_of_mem_moved hne hk hlinks hw, fun w hw => ?_, ?_⟩
  · obtain ⟨hs, -⟩ := (mem_moved_iff h henter hlinks).1 hw
    rw [label?_removeState h, hs, hleave, ite_self]
  · -- the states that are entered ascend
    rw [moved_eq h henter hlinks, List.map_map, List.nodup_iff_pairwise_ne, List.pairwise_map]
    refine links.out.ascending.imp fun {d e} hde heq => ?_
    exact absurd (Prod.mk.inj heq).2 (Nat.ne_of_lt hde)

/-- Where nothing leaves the one state and nothing enters the other, the first
takes over what leaves the second. -/
theorem label?_merge (hleave : ∀ y, a.label? keep y = none) (x y : State) :
    (a.merge keep absorb).label? x y =
      if x = absorb ∨ y = absorb then none
      else if x = keep then a.label? absorb y else a.label? x y := by
  obtain ⟨links, hlinks⟩ := Option.isSome_iff_exists.1 ha
  have hmoved : ∀ x y label, ⟨x, y, label⟩ ∈ moved keep absorb links ↔
      (if x = keep then a.label? absorb y else none) = some label := by
    intro x y label
    rw [mem_moved_iff h henter hlinks]
    by_cases hx : x = keep <;> simp [hx]
  rw [h.label?_merge_eq hne hk hlinks, written?_eq (hmoved x y)]
  by_cases hx : x = keep
  · rw [if_pos hx, if_pos hx, hx]
    by_cases hy : y = absorb
    · -- nothing entered the absorbed state, so nothing comes back to it
      rw [if_pos (Or.inr hy), if_pos (Or.inr hy), hy, henter]
      rfl
    · rw [if_neg (not_or.2 ⟨hne, hy⟩), if_neg (not_or.2 ⟨hne, hy⟩), hleave, Option.or_none]
  · rw [if_neg hx, if_neg hx, Option.none_or]

end Free

end Merge

theorem WellLinked.merge (h : a.WellLinked) (keep absorb : State) :
    (a.merge keep absorb).WellLinked := by
  rcases ha : a.row? absorb with _ | links
  · rwa [merge_eq_self (Or.inl ha)]
  · by_cases hne : keep = absorb
    · rwa [merge_eq_self (Or.inr (Or.inl hne))]
    · by_cases hk : a.contains keep = true
      · have hb := (h.removeState absorb).write (moved keep absorb links)
        -- the state that is kept is there, and no other role is with the absorbed state
        have hmem : ∀ x, a.contains x = true → x ≠ absorb →
            ((a.removeState absorb).write (moved keep absorb links)).contains x = true := by
          intro x hx hxa
          rw [contains_write, contains_removeState, if_neg hxa, hx]
        rw [merge_eq ha hne hk]
        refine ⟨hb.agree, fun x hx => ?_, fun x hx => ?_⟩
        · replace hx : (if a.initial = some absorb then some keep else a.initial) = some x := hx
          split at hx
          · cases hx
            exact hmem keep hk hne
          · rename_i hi
            exact hmem x (h.initial_mem x hx) fun hxa => hi (hxa ▸ hx)
        · replace hx : (if a.final = some absorb then some keep else a.final) = some x := hx
          split at hx
          · cases hx
            exact hmem keep hk hne
          · rename_i hf
            exact hmem x (h.final_mem x hx) fun hxa => hf (hxa ▸ hx)
      · rwa [merge_eq_self (Or.inr (Or.inr (by simpa using hk)))]

/-- Both ends of every transition agree after every change. -/
theorem WellLinked.apply (h : a.WellLinked) (r : Request) : (a.apply r).WellLinked := by
  cases r with
  | addState => exact h.addState
  | removeState q => exact h.removeState q
  | connect p q label => exact h.connect p q label
  | disconnect p q => exact h.disconnect p q
  | setInitial q => exact h.setInitial q
  | setFinal q => exact h.setFinal q
  | merge keep absorb => exact h.merge keep absorb

/-! ### The automaton of an expression -/

section Building

variable (a : Automaton) (e l r : Regex)

/-- Transitions that read nothing. -/
def joins (ends : List (State × State)) : List Rewrite :=
  ends.map fun e => ⟨e.1, e.2, Operand.emptyString.print⟩

/-- The pairs of states that are joined around a repetition. -/
def starJoins (inner ends : Fragment) : List (State × State) :=
  [(ends.entry, inner.entry), (inner.exit, ends.exit), (inner.exit, inner.entry),
    (ends.entry, ends.exit)]

/-- The pairs of states that are joined around a union. -/
def unionJoins (left right ends : Fragment) : List (State × State) :=
  [(ends.entry, left.entry), (ends.entry, right.entry), (left.exit, ends.exit),
    (right.exit, ends.exit)]

theorem write_joins_cons (p q : State) (ends : List (State × State)) :
    a.write (joins ((p, q) :: ends)) = (a.joinEmpty p q).write (joins ends) := rfl

theorem write_joins_nil : a.write (joins []) = a := rfl

theorem buildInto_operand (o : Operand) :
    buildInto (.operand o) a =
      (a.addEnds.1, a.addEnds.2.write [⟨a.addEnds.1.entry, a.addEnds.1.exit, o.print⟩]) := by
  rw [buildInto, write_cons]
  rfl

theorem buildInto_star {inner : Fragment} {b : Automaton} (h : buildInto e a = (inner, b)) :
    buildInto (.star e) a =
      (b.addEnds.1, b.addEnds.2.write (joins (starJoins inner b.addEnds.1))) := by
  simp only [buildInto, h, starJoins, write_joins_cons, write_joins_nil]

theorem buildInto_concat {left right : Fragment} {b c : Automaton}
    (hl : buildInto l a = (left, b)) (hr : buildInto r b = (right, c)) :
    buildInto (.concat l r) a =
      (⟨left.entry, right.exit⟩, c.merge left.exit right.entry) := by
  simp only [buildInto, hl, hr]

theorem buildInto_union {left right : Fragment} {b c : Automaton}
    (hl : buildInto l a = (left, b)) (hr : buildInto r b = (right, c)) :
    buildInto (.union l r) a =
      (c.addEnds.1, c.addEnds.2.write (joins (unionJoins left right c.addEnds.1))) := by
  simp only [buildInto, hl, hr, unionJoins, write_joins_cons, write_joins_nil]

theorem ofRegex_eq :
    ofRegex e =
      ((buildInto e .empty).2.setInitial (some (buildInto e .empty).1.entry)).setFinal
        (some (buildInto e .empty).1.exit) := by
  rw [ofRegex]

end Building

/-- The fragment of an expression comes of an automaton, operation by
operation, and the automaton has grown into another one. -/
inductive Built : Regex → Automaton → Fragment → Automaton → Prop where
  | operand (o : Operand) (a : Automaton) :
    Built (.operand o) a a.addEnds.1
      (a.addEnds.2.write [⟨a.addEnds.1.entry, a.addEnds.1.exit, o.print⟩])
  | star {e : Regex} {a b : Automaton} {inner : Fragment} (h : Built e a inner b) :
    Built (.star e) a b.addEnds.1 (b.addEnds.2.write (joins (starJoins inner b.addEnds.1)))
  | concat {l r : Regex} {a b c : Automaton} {left right : Fragment} (hl : Built l a left b)
    (hr : Built r b right c) :
    Built (.concat l r) a ⟨left.entry, right.exit⟩ (c.merge left.exit right.entry)
  | union {l r : Regex} {a b c : Automaton} {left right : Fragment} (hl : Built l a left b)
    (hr : Built r b right c) :
    Built (.union l r) a c.addEnds.1
      (c.addEnds.2.write (joins (unionJoins left right c.addEnds.1)))

theorem built_buildInto (e : Regex) (a : Automaton) :
    Built e a (buildInto e a).1 (buildInto e a).2 := by
  induction e generalizing a with
  | operand o =>
    rw [buildInto_operand]
    dsimp only
    exact .operand o a
  | star e ih =>
    rw [buildInto_star a e rfl]
    dsimp only
    exact .star (ih a)
  | concat l r ihl ihr =>
    rw [buildInto_concat a l r rfl rfl]
    dsimp only
    exact .concat (ihl a) (ihr (buildInto l a).2)
  | union l r ihl ihr =>
    rw [buildInto_union a l r rfl rfl]
    dsimp only
    exact .union (ihl a) (ihr (buildInto l a).2)

theorem WellLinked.addEnds (h : a.WellLinked) : a.addEnds.2.WellLinked := h.addState.addState

theorem WellLinked.built {e : Regex} {ends : Fragment} {b : Automaton} (h : a.WellLinked)
    (hb : Built e a ends b) : b.WellLinked := by
  induction hb with
  | operand o a => exact h.addEnds.write _
  | star _ ih => exact (ih h).addEnds.write _
  | concat _ _ ihl ihr => exact (ihr (ihl h)).merge _ _
  | union _ _ ihl ihr => exact (ihr (ihl h)).addEnds.write _

theorem wellLinked_ofRegex (e : Regex) : (ofRegex e).WellLinked := by
  rw [ofRegex_eq]
  apply WellLinked.setFinal
  apply WellLinked.setInitial
  exact wellLinked_empty.built (built_buildInto e .empty)

end RegexAutomata.Automaton
