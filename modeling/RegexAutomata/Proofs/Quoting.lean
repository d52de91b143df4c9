/-
What is written between quotation marks can be read back.

Writing is unambiguous if it can be told what was written and where that ends, whatever
follows (`UnambiguousOn`).  It stays so when several things are written one after another
(`UnambiguousOn.append`) or as many as there are, up to a sign that begins none of them
(`UnambiguousOn.flatMap`).

A character between quotation marks is written as itself or behind a backslash (`Escaped`),
in an unambiguous way (`Escaped.unambiguous`); so a quoted text is (`unambiguousOn_writeText`).
-/
import Mathlib.Data.Set.Function
import RegexAutomata.Dot.Printer

namespace RegexAutomata

variable {α β γ : Type}

/-! ### Unambiguous writing -/

/-- From what is written it can be told which of the values in `S` it was and where it ends,
whatever follows. -/
def UnambiguousOn (S : Set α) (write : α → List β) : Prop :=
  ∀ x ∈ S, ∀ y ∈ S, ∀ r s, write x ++ r = write y ++ s → x = y ∧ r = s

namespace UnambiguousOn

variable {S : Set α} {T : Set γ} {write : α → List β} {write' : γ → List β}

theorem mono {S' : Set α} (h : UnambiguousOn S write) (hS : S' ⊆ S) : UnambiguousOn S' write :=
  fun x hx y hy => h x (hS hx) y (hS hy)

/-- Values may be written as others. -/
theorem comp (h : UnambiguousOn T write') {f : α → γ} (hf : Set.MapsTo f S T)
    (hinj : Set.InjOn f S) : UnambiguousOn S fun x => write' (f x) := by
  intro x hx y hy r s heq
  obtain ⟨hxy, hrs⟩ := h _ (hf hx) _ (hf hy) r s heq
  exact ⟨hinj hx hy hxy, hrs⟩

/-- One after another. -/
theorem append (h : UnambiguousOn S write) (h' : UnambiguousOn T write') :
    UnambiguousOn (S ×ˢ T) fun p => write p.1 ++ write' p.2 := by
  intro p hp q hq r s heq
  rw [List.append_assoc, List.append_assoc] at heq
  obtain ⟨hfst, hrest⟩ := h _ hp.1 _ hq.1 _ _ heq
  obtain ⟨hsnd, hrs⟩ := h' _ hp.2 _ hq.2 _ _ hrest
  exact ⟨Prod.ext hfst hsnd, hrs⟩

/-- As many as there are, up to a sign that begins none of them. -/
theorem flatMap (h : UnambiguousOn S write) (stop : β)
    (hstop : ∀ x ∈ S, ∀ r s, write x ++ r ≠ stop :: s) :
    UnambiguousOn {xs : List α | ∀ x ∈ xs, x ∈ S} fun xs => xs.flatMap write ++ [stop] := by
  intro xs hxs ys hys r s heq
  rw [List.append_assoc, List.append_assoc, List.singleton_append, List.singleton_append] at heq
  induction xs generalizing ys with
  | nil =>
    cases ys with
    | nil => exact ⟨rfl, (List.cons.inj heq).2⟩
    | cons y ys =>
      rw [List.flatMap_cons, List.append_assoc] at heq
      exact absurd heq.symm (hstop y (hys y List.mem_cons_self) _ _)
  | cons x xs ih =>
    cases ys with
    | nil =>
      rw [List.flatMap_cons, List.append_assoc] at heq
      exact absurd heq (hstop x (hxs x List.mem_cons_self) _ _)
    | cons y ys =>
      rw [List.flatMap_cons, List.flatMap_cons, List.append_assoc, List.append_assoc] at heq
      obtain ⟨rfl, hrest⟩ :=
        h x (hxs x List.mem_cons_self) y (hys y List.mem_cons_self) _ _ heq
      obtain ⟨rfl, hrs⟩ := ih (fun z hz => hxs z (List.mem_cons_of_mem _ hz)) ys
        (fun z hz => hys z (List.mem_cons_of_mem _ hz)) hrest
      exact ⟨rfl, hrs⟩

end UnambiguousOn

/-- A list up to a sign that does not stand in it. -/
theorem unambiguousOn_upTo (stop : β) :
    UnambiguousOn {xs : List β | stop ∉ xs} fun xs => xs ++ [stop] := by
  have hone : UnambiguousOn {x : β | x ≠ stop} fun x => [x] := fun x _ y _ r s heq =>
    List.cons.inj heq
  have hmany := hone.flatMap stop fun x hx r s heq => hx (List.cons.inj heq).1
  simp only [List.flatMap_singleton'] at hmany
  exact hmany.mono fun xs hxs x hx hstop => hxs (hstop ▸ hx)

namespace Text

/-! ### Digits -/

theorem digitChar_inj {m n : Nat} (hm : m < 16) (hn : n < 16)
    (h : m.digitChar = n.digitChar) : m = n := by
  have hall : ∀ m < 16, ∀ n < 16, m.digitChar = n.digitChar → m = n := by decide
  exact hall m hm n hn h

theorem digitChar_ne_brace {n : Nat} (h : n < 16) : n.digitChar ≠ '\x7d' := by
  have hall : ∀ n < 16, n.digitChar ≠ '\x7d' := by decide
  exact hall n h

/-- The last digit, behind those of the rest. -/
theorem hexDigits_eq (n : Nat) :
    hexDigits n =
      if n < 16 then [n.digitChar] else hexDigits (n / 16) ++ [(n % 16).digitChar] :=
  Nat.toDigits_eq_if (by decide)

/-- A number is known by its digits. -/
theorem hexDigits_injective {m n : Nat} (h : hexDigits m = hexDigits n) : m = n := by
  induction m using Nat.strong_induction_on generalizing n with
  | _ m ih =>
    rw [hexDigits_eq m, hexDigits_eq n] at h
    by_cases hm : m < 16
    · by_cases hn : n < 16
      · rw [if_pos hm, if_pos hn] at h
        exact digitChar_inj hm hn (List.singleton_inj.1 h)
      · rw [if_pos hm, if_neg hn] at h
        have hlen := congrArg List.length h
        have hpos : 0 < (hexDigits (n / 16)).length := Nat.length_toDigits_pos
        simp only [List.length_singleton, List.length_append] at hlen
        omega
    · by_cases hn : n < 16
      · rw [if_neg hm, if_pos hn] at h
        have hlen := congrArg List.length h
        have hpos : 0 < (hexDigits (m / 16)).length := Nat.length_toDigits_pos
        simp only [List.length_singleton, List.length_append] at hlen
        omega
      · rw [if_neg hm, if_neg hn] at h
        obtain ⟨hrest, hlast⟩ := List.append_inj' h rfl
        have hdiv : m / 16 = n / 16 := ih (m / 16) (by omega) hrest
        have hmod : m % 16 = n % 16 :=
          digitChar_inj (by omega) (by omega) (List.singleton_inj.1 hlast)
        omega

theorem brace_notMem_hexDigits (n : Nat) : '\x7d' ∉ hexDigits n := by
  induction n using Nat.strong_induction_on with
  | _ n ih =>
    rw [hexDigits_eq]
    split
    · rename_i hn
      exact fun h => digitChar_ne_brace hn (List.mem_singleton.1 h).symm
    · intro h
      rcases List.mem_append.1 h with h | h
      · exact ih (n / 16) (by omega) h
      · exact digitChar_ne_brace (by omega) (List.mem_singleton.1 h).symm

/-- The code point of a character can be read up to the brace behind it. -/
theorem unambiguousOn_codePoint :
    UnambiguousOn Set.univ fun c : Char => hexDigits c.toNat ++ ['\x7d'] :=
  (unambiguousOn_upTo '\x7d').comp (fun c _ => brace_notMem_hexDigits c.toNat)
    fun _ _ _ _ h => Char.toNat_inj.1 (hexDigits_injective h)

/-! ### Characters between quotation marks -/

/-- How a character may be written between quotation marks: the mark and a backslash behind
a backslash, and every other character as itself or as its own escape. -/
inductive Escaped : Char → List Char → Prop
  | mark : Escaped '"' ['\\', '"']
  | backslash : Escaped '\\' ['\\', '\\']
  | itself {c : Char} (hmark : c ≠ '"') (hback : c ≠ '\\') : Escaped c [c]
  | nul : Escaped '\x00' ['\\', '0']
  | tab : Escaped '\t' ['\\', 't']
  | lineFeed : Escaped '\n' ['\\', 'n']
  | carriageReturn : Escaped '\r' ['\\', 'r']
  | codePoint (c : Char) : Escaped c (codePointEscape c)

theorem escaped_escapeChar (c : Char) : Escaped c (escapeChar '"' c) := by
  rw [escapeChar]
  split
  · rename_i h
    rcases h with rfl | rfl
    · exact .mark
    · exact .backslash
  · rename_i h
    obtain ⟨hmark, hback⟩ := not_or.1 h
    split_ifs with h₁ h₂ h₃ h₄ h₅
    · exact h₁ ▸ .nul
    · exact h₂ ▸ .tab
    · exact h₃ ▸ .lineFeed
    · exact h₄ ▸ .carriageReturn
    · exact .itself hmark hback
    · exact .codePoint c

/-- No character is written like the end of the text. -/
theorem Escaped.append_ne_mark {c : Char} {cs : List Char} (h : Escaped c cs) (r s : List Char) :
    cs ++ r ≠ '"' :: s := by
  cases h with
  | itself hmark _ => exact fun heq => hmark (List.cons.inj heq).1
  | _ => exact fun heq => absurd (List.cons.inj heq).1 (by decide)

/-- What can follow a backslash tells the character. -/
theorem Escaped.unambiguous {c d : Char} {cs ds r s : List Char} (hc : Escaped c cs)
    (hd : Escaped d ds) (h : cs ++ r = ds ++ s) : c = d ∧ r = s := by
  cases hc with
  | codePoint c =>
    cases hd with
    | codePoint d =>
      simp only [codePointEscape, List.cons_append, List.cons.injEq, true_and] at h
      exact unambiguousOn_codePoint c trivial d trivial r s h
    | itself _ hback => exact absurd (List.cons.inj h).1.symm hback
    | _ => simp [codePointEscape] at h
  | itself _ hback =>
    cases hd with
    | itself _ _ => exact List.cons.inj h
    | _ => exact absurd (List.cons.inj h).1 hback
  | _ =>
    cases hd with
    | itself _ hback => exact absurd (List.cons.inj h).1.symm hback
    | _ => simp_all [codePointEscape]

end Text

namespace Dot

open Text

/-- A quoted text can be read back, whatever follows. -/
theorem unambiguousOn_writeText : UnambiguousOn Set.univ writeText := by
  have hone : UnambiguousOn Set.univ (escapeChar '"') := fun c _ d _ r s heq =>
    (escaped_escapeChar c).unambiguous (escaped_escapeChar d) heq
  have hmany := hone.flatMap '"' fun c _ r s =>
    (escaped_escapeChar c).append_ne_mark r s
  intro x _ y _ r s heq
  simp only [writeText, quoteWith, List.cons_append] at heq
  obtain ⟨hxy, hrs⟩ := hmany x.toList (fun _ _ => trivial) y.toList (fun _ _ => trivial) r s
    (List.cons.inj heq).2
  exact ⟨String.toList_inj.1 hxy, hrs⟩

end Dot

end RegexAutomata
