import LiveSheet.Text.Span

/-! The places of a text that lie in its literals. A scan that only keeps whether it stands in a literal comes to the
same places as the spans that are written down. -/

namespace LiveSheet.Text

def Quoting.along (templates : Bool) (q : Quoting) (cs : List Char) : Quoting :=
  cs.foldl (fun q c => q.after templates c) q

variable {templates : Bool} {i start p j : Nat} {q : Quoting} {quote : Char} {escaped : Bool} {c : Char} {cs : List Char}

@[simp] theorem Quoting.along_nil : q.along templates [] = q := rfl

@[simp] theorem Quoting.along_cons : q.along templates (c :: cs) = (q.after templates c).along templates cs := rfl

@[simp] theorem inSpans_cons (s : Span) (spans : List Span) :
    inSpans (s :: spans) p = ((s.start ≤ p && p < s.stop) || inSpans spans p) := rfl

theorem Quoting.after_code (h : opens templates c = false) : Quoting.code.after templates c = .code := by
  simp [Quoting.after, h]

theorem inSpans_of_literal (hstart : start ≤ p) (hp : p < i) :
    inSpans (literalSpansFrom templates i start (.literal quote escaped) cs) p = true := by
  induction cs generalizing i escaped with
  | nil => simp [literalSpansFrom, inSpans, hstart, hp]
  | cons c cs ih =>
    rw [literalSpansFrom]
    cases hnext : (Quoting.literal quote escaped).after templates c with
    | code => simp [hstart, Nat.lt_succ_of_lt hp]
    | literal quote' escaped' =>
      have hquote : quote' = quote := by
        cases escaped <;> simp only [Quoting.after] at hnext <;> grind
      subst hquote
      exact ih (Nat.lt_succ_of_lt hp)

theorem not_inSpans_of_lt (hp : p < i) (hstart : q ≠ .code → p < start) :
    inSpans (literalSpansFrom templates i start q cs) p = false := by
  induction cs generalizing i start q with
  | nil => cases q with
    | code => rfl
    | literal quote escaped => simp [literalSpansFrom, inSpans, Nat.not_le_of_lt (hstart nofun)]
  | cons c cs ih =>
    cases q with
    | code =>
      rw [literalSpansFrom]
      exact ih (Nat.lt_succ_of_lt hp) fun _ => hp
    | literal quote escaped =>
      have hbefore := hstart nofun
      rw [literalSpansFrom]
      cases hnext : (Quoting.literal quote escaped).after templates c with
      | code =>
        simp only [inSpans_cons, decide_eq_false (Nat.not_le_of_lt hbefore), Bool.false_and, Bool.false_or]
        exact ih (Nat.lt_succ_of_lt hp) (absurd rfl)
      | literal quote' escaped' => exact ih (Nat.lt_succ_of_lt hp) fun _ => hbefore

theorem inSpans_literalSpansFrom (hc : cs[j]? = some c) (hstart : start ≤ i) :
    inSpans (literalSpansFrom templates i start q cs) (i + j) =
      (decide (q.along templates (cs.take j) ≠ .code) || opens templates c) := by
  induction cs generalizing i start q j with
  | nil => cases hc
  | cons d cs ih =>
    cases j with
    | zero =>
      obtain rfl : d = c := by simpa using hc
      cases q with
      | code =>
        rw [literalSpansFrom]
        cases hopens : opens templates d with
        | false =>
          rw [Quoting.after_code hopens]
          simpa using not_inSpans_of_lt (Nat.lt_succ_self i) (absurd rfl)
        | true => simp [Quoting.after, hopens, inSpans_of_literal]
      | literal quote escaped =>
        rw [literalSpansFrom]
        cases (Quoting.literal quote escaped).after templates d with
        | code => simp [hstart]
        | literal quote' escaped' => simp [inSpans_of_literal hstart]
    | succ j =>
      have hc' : cs[j]? = some c := by simpa using hc
      have hnext : i + (j + 1) = i + 1 + j := by omega
      rw [hnext, List.take_succ_cons, Quoting.along_cons]
      cases q with
      | code =>
        rw [literalSpansFrom]
        exact ih hc' (Nat.le_succ i)
      | literal quote escaped =>
        rw [literalSpansFrom]
        cases hafter : (Quoting.literal quote escaped).after templates d with
        | code =>
          rw [inSpans_cons, decide_eq_false (Nat.not_lt_of_le (Nat.le_add_right (i + 1) j)), Bool.and_false, Bool.false_or]
          exact ih hc' (Nat.zero_le _)
        | literal quote' escaped' => exact ih hc' (Nat.le_succ_of_le hstart)

theorem inSpans_literalSpans (hc : cs[j]? = some c) : inSpans (literalSpans templates cs) j =
    (decide (Quoting.code.along templates (cs.take j) ≠ .code) || opens templates c) := by
  have hspans : inSpans (literalSpansFrom templates 0 0 .code cs) (0 + j) = _ :=
    inSpans_literalSpansFrom hc (Nat.le_refl 0)
  rwa [Nat.zero_add] at hspans

/-- Both scans stand in code, or in the same literal. -/
inductive Region.Follows : Region → Nat → Quoting → Prop
  | code (start : Nat) : Follows .code start .code
  | quoted (start : Nat) (quote : Char) (escaped : Bool) : Follows (.quoted start quote escaped) start (.literal quote escaped)
  | template (start : Nat) (escaped : Bool) : Follows (.template start escaped) start (.literal '\x60' escaped)

theorem Region.Follows.spans_eq {r : Region} (h : r.Follows start q) (hplain : ¬['$', '\x7b'] <:+: cs) :
    nonCodeSpansFrom i r [] cs = literalSpansFrom true i start q cs := by
  induction cs generalizing i start r q with
  | nil => cases h <;> rfl
  | cons c cs ih =>
    have hrest : ¬['$', '\x7b'] <:+: cs := fun hmem => hplain (hmem.trans (List.suffix_cons c cs).isInfix)
    cases h with
    | code start =>
      rw [nonCodeSpansFrom, literalSpansFrom]
      by_cases hquote : c = '"' ∨ c = '\''
      · have hopens : opens true c = true := by
          rcases hquote with rfl | rfl <;> rfl
        rw [if_pos hquote, Quoting.after, if_pos hopens]
        exact ih (.quoted i c false) hrest
      by_cases htick : c = '\x60'
      · subst htick
        rw [if_neg hquote, if_pos rfl]
        exact ih (.template i false) hrest
      · have hopens : opens true c = false := by
          simp only [not_or] at hquote
          simp [opens, hquote, htick]
        rw [if_neg hquote, if_neg htick, Quoting.after_code hopens]
        exact ih (.code i) hrest
    | quoted start quote escaped =>
      rw [nonCodeSpansFrom, literalSpansFrom]
      cases escaped with
      | true => exact ih (.quoted start quote false) hrest
      | false =>
        simp only [Bool.false_eq_true, if_false, Quoting.after]
        by_cases hslash : c = '\\'
        · simp only [if_pos hslash]
          exact ih (.quoted start quote true) hrest
        by_cases hquote : c = quote
        · simp only [if_neg hslash, if_pos hquote]
          exact congrArg _ (ih (.code 0) hrest)
        · simp only [if_neg hslash, if_neg hquote]
          exact ih (.quoted start quote false) hrest
    | template start escaped =>
      rw [nonCodeSpansFrom.eq_def, literalSpansFrom]
      cases escaped with
      | true => exact ih (.template start false) hrest
      | false =>
        simp only [Bool.false_eq_true, if_false, Quoting.after]
        by_cases hslash : c = '\\'
        · simp only [if_pos hslash]
          exact ih (.template start true) hrest
        by_cases htick : c = '\x60'
        · simp only [if_neg hslash, if_pos htick]
          exact congrArg _ (ih (.code 0) hrest)
        · simp only [if_neg hslash, if_neg htick]
          have hnext := ih (i := i + 1) (.template start false) hrest
          by_cases hdollar : c = '$'
          · rw [if_pos hdollar]
            split
            · exact absurd (hdollar ▸ (List.prefix_append ['$', '\x7b'] _).isInfix) hplain
            · exact hnext
          · rw [if_neg hdollar]
            exact hnext

/-- Where no `$` stands before a brace, what is no code are the literals. -/
theorem nonCodeSpans_eq_literalSpans (hplain : ¬['$', '\x7b'] <:+: cs) : nonCodeSpans cs = literalSpans true cs :=
  (Region.Follows.code 0).spans_eq hplain

end LiveSheet.Text
