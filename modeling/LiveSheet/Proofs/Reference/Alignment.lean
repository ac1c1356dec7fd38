import LiveSheet.Proofs.Reference.Mention

/-! A reader stands in code where the scan for literals does. -/

namespace LiveSheet.References

variable {spans : List Text.Span} {s : Sight} {c : Char}

theorem isQuote_cases (h : isQuote c = true) : c = '"' ∨ c = '\'' := by simpa [isQuote] using h

/-- The scan for literals stands where a reader does. It takes the dollar and the brace of an interpolation at once. -/
def Aligned (spans : List Text.Span) (i : Nat) (r : Reader) (cs : List Char) : Prop :=
  match r.place with
  | .code => Await.At spans i .code r.braces cs
  | .quoted quote escaped => ∃ start ≤ i, Await.At spans i (.quoted start quote escaped) r.braces cs
  | .template escaped false => ∃ start ≤ i, Await.At spans i (.template start escaped) r.braces cs
  | .template escaped true => escaped = false ∧
    ∃ start j, start ≤ j ∧ i = j + 1 ∧ Await.At spans j (.template start false) r.braces ('$' :: cs)

namespace Aligned

variable {i : Nat} {cs : List Char} {braces : List Nat}

theorem next_template {start : Nat} {dollar : Bool} (hdollar : dollar = true → c ≠ '\x7b') (hstart : start ≤ i)
    (h : Await.At spans i (.template start false) braces (c :: cs)) (s : Sight) :
    Aligned spans (i + 1) ((⟨.template false dollar, braces, s⟩ : Reader).next c) cs := by
  have hbrace : ¬(dollar = true ∧ c = '\x7b') := fun h => hdollar h.1 h.2
  simp only [Reader.next, if_neg hbrace]
  by_cases hslash : c = '\\'
  · subst hslash
    exact ⟨start, Nat.le_succ_of_le hstart, h.move (Nat.le_succ i) Text.nonCodeSpansFrom_template_backslash⟩
  · by_cases htick : c = '\x60'
    · subst htick
      exact (h.found (Nat.le_succ i) Text.nonCodeSpansFrom_template_close).2
    · rw [if_neg hslash, if_neg htick]
      by_cases hc : c = '$'
      · subst hc
        exact ⟨rfl, start, i, hstart, rfl, h⟩
      · have hdollar : (c == '$') = false := beq_eq_false_iff_ne.2 hc
        rw [hdollar]
        exact ⟨start, Nat.le_succ_of_le hstart, h.move (Nat.le_succ i) (Await.At.template_plain htick hslash (fun heq => absurd heq hc) i)⟩

theorem next_dollar {escaped : Bool} (h : Aligned spans i ⟨.template escaped true, braces, s⟩ (c :: cs)) (s' : Sight) :
    Aligned spans (i + 1) ((⟨.template escaped true, braces, s'⟩ : Reader).next c) cs := by
  obtain ⟨hescaped, start, j, hstart, rfl, hdollar⟩ := h
  obtain rfl : escaped = false := hescaped
  by_cases hc : c = '\x7b'
  · subst hc
    exact (hdollar.found (by omega) Text.nonCodeSpansFrom_template_code).2
  · have hhead : (c :: cs).head? ≠ some '\x7b' := by simpa using hc
    have hplain := hdollar.move (Nat.le_succ j) (Await.At.template_plain (by decide) (by decide) (fun _ => hhead) j)
    exact next_template (fun _ => hc) (Nat.le_succ_of_le hstart) hplain s'

theorem next_quoted {start : Nat} {quote : Char} (hstart : start ≤ i)
    (h : Await.At spans i (.quoted start quote false) braces (c :: cs)) (s : Sight) :
    Aligned spans (i + 1) ((⟨.quoted quote false, braces, s⟩ : Reader).next c) cs := by
  simp only [Reader.next]
  by_cases hslash : c = '\\'
  · subst hslash
    exact ⟨start, Nat.le_succ_of_le hstart, h.move (Nat.le_succ i) Text.nonCodeSpansFrom_quoted_backslash⟩
  · rw [if_neg hslash]
    by_cases hquote : c = quote
    · subst hquote
      rw [if_pos rfl]
      exact (h.found (Nat.le_succ i) (Text.nonCodeSpansFrom_quoted_close hslash)).2
    · rw [if_neg hquote]
      exact ⟨start, Nat.le_succ_of_le hstart, h.move (Nat.le_succ i) (Await.At.quoted_plain hquote hslash i)⟩

theorem next_code (h : Await.At spans i .code braces (c :: cs)) (s : Sight) :
    Aligned spans (i + 1) ((⟨.code, braces, s⟩ : Reader).next c) cs := by
  simp only [Reader.next]
  by_cases hquote : isQuote c = true
  · rw [if_pos hquote]
    exact ⟨i, Nat.le_succ i, h.move (Nat.le_succ i) (Text.nonCodeSpansFrom_code_quote (isQuote_cases hquote))⟩
  · have hmarks : c ≠ '"' ∧ c ≠ '\'' := by simpa [isQuote] using hquote
    rw [if_neg hquote]
    by_cases htick : c = '\x60'
    · subst htick
      exact ⟨i, Nat.le_succ i, h.backtick⟩
    · rw [if_neg htick]
      have hcode := fun hbrace => h.move (Nat.le_succ i) (Text.nonCodeSpansFrom_code ⟨hmarks.1, hmarks.2, htick⟩ hbrace)
      cases braces with
      | nil => exact hcode (.inl rfl)
      | cons depth outer =>
        by_cases hopen : c = '\x7b'
        · subst hopen
          exact h.move (Nat.le_succ i) Text.nonCodeSpansFrom_code_brace
        · by_cases hclose : c = '\x7d'
          · subst hclose
            by_cases hdepth : depth = 0
            · subst hdepth
              exact ⟨i, Nat.le_succ i, h.brace⟩
            · simp only [if_neg hopen, if_pos, if_neg hdepth]
              exact h.move (Nat.le_succ i) (Text.nonCodeSpansFrom_code_close hdepth)
          · simp only [if_neg hopen, if_neg hclose]
            exact hcode (.inr ⟨hopen, hclose⟩)

theorem next {r : Reader} (h : Aligned spans i r (c :: cs)) : Aligned spans (i + 1) (r.next c) cs := by
  obtain ⟨place, braces, s⟩ := r
  cases place with
  | code => exact next_code h s
  | quoted quote escaped =>
    obtain ⟨start, hstart, h⟩ := h
    cases escaped with
    | true => exact ⟨start, Nat.le_succ_of_le hstart, h.move (Nat.le_succ i) Text.nonCodeSpansFrom_quoted_escaped⟩
    | false => exact next_quoted hstart h s
  | template escaped dollar =>
    cases dollar with
    | true => exact next_dollar h s
    | false =>
      obtain ⟨start, hstart, h⟩ := h
      cases escaped with
      | true => exact ⟨start, Nat.le_succ_of_le hstart, h.move (Nat.le_succ i) Text.nonCodeSpansFrom_template_escaped⟩
      | false => exact next_template (fun h => absurd h Bool.false_ne_true) hstart h s

theorem after {r : Reader} (xs : List Char) (h : Aligned spans i r (xs ++ cs)) :
    Aligned spans (i + xs.length) (r.after xs) cs := by
  induction xs generalizing i r with
  | nil => exact h
  | cons x xs ih =>
    have hnext := ih h.next
    rwa [List.length_cons, Nat.add_comm xs.length, ← Nat.add_assoc]

end Aligned

theorem exists_open_span (i : Nat) (region : Text.Region) (braces : List Nat) (cs : List Char) :
    match region with
    | .code => True
    | .quoted start .. => ∃ stop, ⟨start, stop⟩ ∈ Text.nonCodeSpansFrom i region braces cs ∧ i + min 1 cs.length ≤ stop
    | .template start _ => ∃ stop, ⟨start, stop⟩ ∈ Text.nonCodeSpansFrom i region braces cs ∧ i + min 1 cs.length ≤ stop := by
  fun_induction Text.nonCodeSpansFrom i region braces cs <;> grind

theorem Aligned.place_of_not_inSpans {i : Nat} {cs : List Char} {r : Reader} (h : Aligned spans i r (c :: cs))
    (hspans : Text.inSpans spans i = false) : r.place = .code := by
  obtain ⟨place, braces, s⟩ := r
  have hcovered : ∀ {j start : Nat} {region : Text.Region} {cs' : List Char}, Await.At spans j region braces cs' →
      start ≤ i → ¬∃ stop, ⟨start, stop⟩ ∈ Text.nonCodeSpansFrom j region braces cs' ∧ i < stop := by
    rintro j start region cs' ⟨found, hfound, _⟩ hstart ⟨stop, hmem, hstop⟩
    have hspan := List.any_eq_false.1 hspans ⟨start, stop⟩ (hfound ▸ List.mem_append_right found hmem)
    simp [hstart, hstop] at hspan
  cases place with
  | code => rfl
  | quoted quote escaped =>
    obtain ⟨start, hstart, h⟩ := h
    obtain ⟨stop, hmem, hstop⟩ := exists_open_span i (.quoted start quote escaped) braces (c :: cs)
    exact absurd ⟨stop, hmem, by simpa [Nat.succ_le_iff] using hstop⟩ (hcovered h hstart)
  | template escaped dollar =>
    cases dollar with
    | false =>
      obtain ⟨start, hstart, h⟩ := h
      obtain ⟨stop, hmem, hstop⟩ := exists_open_span i (.template start escaped) braces (c :: cs)
      exact absurd ⟨stop, hmem, by simpa [Nat.succ_le_iff] using hstop⟩ (hcovered h hstart)
    | true =>
      obtain ⟨_, start, j, hstart, rfl, h⟩ := h
      refine absurd ?_ (hcovered h (Nat.le_succ_of_le hstart))
      by_cases hc : c = '\x7b'
      · subst hc
        exact ⟨j + 2, by simp [Text.nonCodeSpansFrom_template_code], by omega⟩
      · have hhead : (c :: cs).head? ≠ some '\x7b' := by simpa using hc
        rw [Await.At.template_plain (by decide) (by decide) (fun _ => hhead) j]
        obtain ⟨stop, hmem, hstop⟩ := exists_open_span (j + 1) (.template start false) braces (c :: cs)
        exact ⟨stop, hmem, by simpa [Nat.succ_le_iff] using hstop⟩

end LiveSheet.References
