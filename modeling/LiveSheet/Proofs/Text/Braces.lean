import Mathlib.Data.List.Infix
import LiveSheet.Text.Brace

/-! The closing brace of an opening one. It is the one with balanced text in between, and there is at most one. -/

namespace LiveSheet.Text

/-- As many braces close as open, and none closes before it was opened. -/
structure EvenBraces (cs : List Char) : Prop where
  count_eq : cs.count '\x7d' = cs.count '\x7b'
  count_le : ∀ front, front <+: cs → front.count '\x7d' ≤ front.count '\x7b'

/-- The text behind an opening brace holds its closing brace. -/
def HoldsClosing (cs : List Char) : Prop := ∃ inner rest, cs = inner ++ '\x7d' :: rest ∧ EvenBraces inner

variable {depth : Nat} {cs inner rest : List Char} {c : Char}

theorem forall_prefix_cons {p : List Char → Prop} :
    (∀ front, front <+: c :: cs → p front) ↔ p [] ∧ ∀ front, front <+: cs → p (c :: front) := by
  constructor
  · exact fun h => ⟨h [] (List.nil_prefix), fun front hfront => h (c :: front) (List.cons_prefix_cons.2 ⟨rfl, hfront⟩)⟩
  · rintro ⟨hnil, hcons⟩ front hfront
    cases front with
    | nil => exact hnil
    | cons d front =>
      obtain ⟨rfl, htail⟩ := List.cons_prefix_cons.1 hfront
      exact hcons front htail

theorem depthAfter_ne_zero (hdepth : depth ≠ 0) (hlast : ¬(c = '\x7d' ∧ depth = 1)) : depthAfter depth c ≠ 0 := by
  unfold depthAfter
  split_ifs with hopening hclosing
  · exact Nat.succ_ne_zero depth
  · exact fun h => hlast ⟨hclosing, by omega⟩
  · exact hdepth

theorem count_cons_sub_depth (hdepth : depth ≠ 0) (c : Char) (front : List Char) :
    ((c :: front).count '\x7d' : Int) - (c :: front).count '\x7b' - depth =
      front.count '\x7d' - front.count '\x7b' - depthAfter depth c := by
  unfold depthAfter
  split_ifs with hopening hclosing
  · subst hopening
    simp
    omega
  · subst hclosing
    simp
    omega
  · simp [hopening, hclosing]

/-- The text in front of the brace that closes the last of the open ones never closes all of them, and all but one are
closed at its end. -/
theorem splitBrace_eq_some_iff (hdepth : depth ≠ 0) : splitBrace depth cs = some (inner, rest) ↔
    cs = inner ++ '\x7d' :: rest ∧ inner.count '\x7d' + 1 = inner.count '\x7b' + depth ∧
      ∀ front, front <+: inner → front.count '\x7d' < front.count '\x7b' + depth := by
  induction cs generalizing depth inner with
  | nil => simp [splitBrace]
  | cons c cs ih =>
    rw [splitBrace]
    split
    · next hlast =>
      obtain ⟨rfl, rfl⟩ := hlast
      constructor
      · rintro ⟨⟩
        simp
      · rintro ⟨heq, -, hopen⟩
        cases inner with
        | nil => simpa using heq
        | cons d inner =>
          obtain rfl := (List.cons.inj heq).1
          have hfirst := hopen ['\x7d'] (List.cons_prefix_cons.2 ⟨rfl, List.nil_prefix⟩)
          simp at hfirst
    · next hlast =>
      have hdepth' := depthAfter_ne_zero hdepth hlast
      have hcount := count_cons_sub_depth hdepth c
      rw [Option.map_eq_some_iff]
      constructor
      · rintro ⟨⟨inner', rest'⟩, hsplit, heq⟩
        obtain ⟨rfl, rfl⟩ := Prod.mk.inj heq
        obtain ⟨rfl, heven, hopen⟩ := (ih hdepth').1 hsplit
        have heven' := hcount inner'
        refine ⟨rfl, by omega, forall_prefix_cons.2 ⟨by simp; omega, fun front hfront => ?_⟩⟩
        have hfront' := hcount front
        have hbelow := hopen front hfront
        omega
      · rintro ⟨heq, heven, hopen⟩
        cases inner with
        | nil =>
          obtain ⟨rfl, -⟩ := List.cons.inj heq
          exact absurd ⟨rfl, by simpa using heven.symm⟩ hlast
        | cons d inner =>
          obtain ⟨rfl, hcs⟩ := List.cons.inj heq
          have heven' := hcount inner
          refine ⟨(inner, rest), (ih hdepth').2 ⟨hcs, by omega, fun front hfront => ?_⟩, rfl⟩
          have hfront' := hcount front
          have hbelow := (forall_prefix_cons.1 hopen).2 front hfront
          omega

theorem splitBrace_one_eq_some_iff : splitBrace 1 cs = some (inner, rest) ↔
    cs = inner ++ '\x7d' :: rest ∧ EvenBraces inner := by
  rw [splitBrace_eq_some_iff Nat.one_ne_zero]
  refine and_congr_right fun _ => ⟨fun h => ⟨by omega, fun front hfront => ?_⟩, fun h => ⟨?_, fun front hfront => ?_⟩⟩
  · exact Nat.le_of_lt_succ (h.2 front hfront)
  · rw [h.count_eq]
  · exact Nat.lt_succ_of_le (h.count_le front hfront)

theorem holdsClosing_iff : HoldsClosing cs ↔ ∃ inner rest, splitBrace 1 cs = some (inner, rest) := by
  simp only [HoldsClosing, splitBrace_one_eq_some_iff]

instance : Decidable (HoldsClosing cs) :=
  decidable_of_iff ((splitBrace 1 cs).isSome = true)
    (by rw [holdsClosing_iff, Option.isSome_iff_exists, Prod.exists])

theorem forall_behind_cons {p : List Char → Prop} : (∀ front back, c :: cs = front ++ '\x7b' :: back → p back) ↔
    (c = '\x7b' → p cs) ∧ ∀ front back, cs = front ++ '\x7b' :: back → p back := by
  constructor
  · exact fun h => ⟨fun hc => h [] cs (by rw [hc]; rfl), fun front back heq => h (c :: front) back (by rw [heq]; rfl)⟩
  · rintro ⟨hfirst, hlater⟩ front back heq
    cases front with
    | nil =>
      obtain ⟨rfl, rfl⟩ := List.cons.inj heq
      exact hfirst rfl
    | cons d front => exact hlater front back (List.cons.inj heq).2

instance decidableForallBehind (p : List Char → Prop) [DecidablePred p] :
    (cs : List Char) → Decidable (∀ front back, cs = front ++ '\x7b' :: back → p back)
  | [] => .isTrue fun front back heq => by cases front <;> cases heq
  | c :: cs =>
    have := decidableForallBehind p cs
    decidable_of_iff _ forall_behind_cons.symm

theorem splitBrace_eq_none (h : ¬HoldsClosing cs) : splitBrace 1 cs = none := by
  refine Option.eq_none_iff_forall_ne_some.2 fun split hsplit => h (holdsClosing_iff.2 ⟨split.1, split.2, hsplit⟩)

end LiveSheet.Text
