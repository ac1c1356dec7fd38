import LiveSheet.Proofs.Await.Clear
import LiveSheet.Proofs.Token.Lexeme

/-! How the pass sees the literals of a text. Its scan takes every piece for what it is, templates and
the code inside of them too: a place in a literal is in one of its spans, and behind a piece of code
it stands in the same code as before. -/

namespace LiveSheet.Await

open Text

/-- The characters that a scan for literals or parentheses looks at. -/
def breaks : List Char := ['"', '\'', '\x60', '\x7b', '\x7d', '\\', '(', ')']

theorem not_mem_breaks_of_isNamePart {c : Char} (h : Text.isNamePart c = true) : c ∉ breaks := by
  have hbreaks : ∀ d ∈ breaks, Text.isNamePart d = false := by decide
  intro hmem
  rw [hbreaks c hmem] at h
  cases h

theorem not_mem_breaks_of_isBlank {c : Char} (h : Text.isBlank c = true) : c ∉ breaks := by
  have hbreaks : ∀ d ∈ breaks, Text.isBlank d = false := by decide
  intro hmem
  rw [hbreaks c hmem] at h
  cases h

def Silent (xs : List Char) : Prop := ∀ c ∈ xs, c ∉ breaks

theorem Silent.append {xs ys : List Char} (hx : Silent xs) (hy : Silent ys) : Silent (xs ++ ys) :=
  fun c hc => (List.mem_append.1 hc).elim (hx c) (hy c)

theorem Blank.silent {gap : List Char} (h : Blank gap) : Silent gap := fun c hc => not_mem_breaks_of_isBlank (h c hc)

theorem Identifier.silent {text : List Char} (h : Identifier text) : Silent text := by
  obtain ⟨_, _, _, _, hall⟩ := h.exists_cons
  exact fun c hc => not_mem_breaks_of_isNamePart (Text.isNamePart_of_isVariablePart (hall c hc))

theorem Target.Fits.silent {names : List String} {t : Target} (h : t.Fits names) : Silent t.chars := by
  cases t with
  | name text gap => exact h.2.1.silent.append h.2.2.silent
  | path owner gap₁ gap₂ text gap₃ =>
    obtain ⟨_, howner, htext, hgap₁, hgap₂, hgap₃⟩ := h
    have hdot : Silent ['.'] := by unfold Silent; decide
    exact howner.silent.append (hgap₁.silent.append (hdot.append (hgap₂.silent.append (htext.silent.append hgap₃.silent))))

theorem numberText_chars {point exponent : Bool} {text digits : List Char}
    (h : Token.numberText point exponent text = (digits, [])) :
    ∀ c ∈ text, Text.isNamePart c = true ∨ c ∈ ['.', '+', '-'] := by
  obtain ⟨used, rfl, hused, -⟩ := Token.number_used h
  rwa [List.append_nil]

theorem Atom.Fits.silent {a : Atom} {next : List Char} (h : a.Fits next) (ha : ∀ q body, a ≠ .quoted q body) :
    Silent a.chars := by
  cases a with
  | word text => exact fun c hc => not_mem_breaks_of_isNamePart (h.2.1 c hc)
  | mark m =>
    unfold Silent
    cases m <;> decide
  | number first text digits value =>
    obtain ⟨hfirst, htext, _⟩ := h
    intro c hc
    rcases List.mem_cons.1 hc with rfl | hc
    · rcases hfirst with hdigit | ⟨rfl, _⟩
      · exact not_mem_breaks_of_isNamePart (Text.isNamePart_of_isDigit hdigit)
      · decide
    · rcases numberText_chars htext c hc with hpart | hmem
      · exact not_mem_breaks_of_isNamePart hpart
      · have hmarks : ∀ d ∈ ['.', '+', '-'], d ∉ breaks := by decide
        exact hmarks c hmem
  | quoted quote body => exact absurd rfl (ha quote body)

/-- The scan for literals has come to a place, and what it found before ends before it. -/
def At (spans : List Span) (i : Nat) (region : Region) (braces : List Nat) (cs : List Char) : Prop :=
  ∃ found, spans = found ++ nonCodeSpansFrom i region braces cs ∧ ∀ s ∈ found, s.stop ≤ i

/-- Every place from `i` on and before `j` is in a literal. -/
def Held (spans : List Span) (i j : Nat) : Prop := ∀ p, i ≤ p → p < j → inSpans spans p = true

namespace At

variable {spans : List Span} {i start : Nat} {braces : List Nat} {cs : List Char}

theorem begin (cs : List Char) : At (Text.nonCodeSpans cs) 0 .code [] cs := ⟨[], rfl, List.forall_mem_nil _⟩

theorem move {region region' : Region} {braces' : List Nat} {cs' : List Char} {j : Nat} (h : At spans i region braces cs)
    (hij : i ≤ j) (heq : nonCodeSpansFrom i region braces cs = nonCodeSpansFrom j region' braces' cs') :
    At spans j region' braces' cs' := by
  obtain ⟨found, hspans, hfound⟩ := h
  exact ⟨found, hspans.trans (heq ▸ rfl), fun s hs => Nat.le_trans (hfound s hs) hij⟩

theorem found {region region' : Region} {braces' : List Nat} {cs' : List Char} {j : Nat} (h : At spans i region braces cs)
    (hij : i ≤ j) (heq : nonCodeSpansFrom i region braces cs = ⟨start, j⟩ :: nonCodeSpansFrom j region' braces' cs') :
    Held spans start j ∧ At spans j region' braces' cs' := by
  obtain ⟨found, hspans, hfound⟩ := h
  refine ⟨fun p hstart hstop => ?_, found ++ [⟨start, j⟩], ?_, ?_⟩
  · rw [hspans, heq, inSpans, List.any_eq_true]
    exact ⟨⟨start, j⟩, by simp, by simp [hstart, hstop]⟩
  · rw [hspans, heq, List.append_assoc]
    rfl
  · intro s hs
    rcases List.mem_append.1 hs with hs | hs
    · exact Nat.le_trans (hfound s hs) hij
    · obtain rfl := List.mem_singleton.1 hs
      exact Nat.le_refl j

theorem skip {c : Char} (hc : c ∉ ['"', '\'', '\x60', '\x7b', '\x7d']) (h : At spans i .code braces (c :: cs)) :
    At spans (i + 1) .code braces cs := by
  refine h.move (Nat.le_succ i) ?_
  simp only [List.mem_cons, List.not_mem_nil, or_false, not_or] at hc
  obtain ⟨h₁, h₂, h₃, h₄, h₅⟩ := hc
  cases braces <;> simp [nonCodeSpansFrom, h₁, h₂, h₃, h₄, h₅]

theorem silent {xs : List Char} (hxs : Silent xs) (h : At spans i .code braces (xs ++ cs)) :
    At spans (i + xs.length) .code braces cs := by
  induction xs generalizing i with
  | nil => exact h
  | cons x xs ih =>
    have hskip : x ∉ ['"', '\'', '\x60', '\x7b', '\x7d'] := fun hmem =>
      hxs x List.mem_cons_self (List.mem_append_left ['\\', '(', ')'] hmem)
    have hrest := ih (fun c hc => hxs c (List.mem_cons_of_mem x hc)) (h.skip hskip)
    rwa [List.length_cons, Nat.add_comm xs.length, ← Nat.add_assoc]

theorem quoted_plain {quote c : Char} (hquote : c ≠ quote) (hslash : c ≠ '\\') (i : Nat) :
    nonCodeSpansFrom i (.quoted start quote false) braces (c :: cs) =
      nonCodeSpansFrom (i + 1) (.quoted start quote false) braces cs := by
  rw [nonCodeSpansFrom.eq_def]
  simp only [Bool.false_eq_true, if_false, if_neg hslash, if_neg hquote]

theorem quoted_escaped (quote c : Char) (i : Nat) : nonCodeSpansFrom i (.quoted start quote false) braces ('\\' :: c :: cs) =
    nonCodeSpansFrom (i + 2) (.quoted start quote false) braces cs := by
  rw [nonCodeSpansFrom.eq_def]
  simp only [Bool.false_eq_true, if_false, if_true]
  rw [nonCodeSpansFrom.eq_def]
  rfl

theorem quoted_spell {quote : Char} {body : List Glyph} (hbody : ∀ g ∈ body, g.Inside quote) (i : Nat) :
    nonCodeSpansFrom i (.quoted start quote false) braces (spell body ++ cs) =
      nonCodeSpansFrom (i + (spell body).length) (.quoted start quote false) braces cs := by
  induction body generalizing i with
  | nil => rfl
  | cons g body ih =>
    have hrest := ih fun g hg => hbody g (List.mem_cons_of_mem _ hg)
    cases g with
    | plain c =>
      obtain ⟨hc, hslash, _⟩ := hbody _ List.mem_cons_self
      rw [show spell (.plain c :: body) = c :: spell body from rfl, List.cons_append, quoted_plain hc hslash, hrest,
        List.length_cons]
      congr 1
      omega
    | escaped c =>
      rw [show spell (.escaped c :: body) = '\\' :: c :: spell body from rfl, List.cons_append, List.cons_append,
        quoted_escaped, hrest, List.length_cons, List.length_cons]
      congr 1
      omega

theorem quoted {quote : Char} {body : List Glyph} (hquote : quote = '"' ∨ quote = '\'')
    (hbody : ∀ g ∈ body, g.Inside quote) (h : At spans i .code braces (quote :: (spell body ++ quote :: cs))) :
    Held spans i (i + (spell body).length + 2) ∧ At spans (i + (spell body).length + 2) .code braces cs := by
  refine h.found (by omega) ?_
  have hopen : nonCodeSpansFrom i .code braces (quote :: (spell body ++ quote :: cs)) =
      nonCodeSpansFrom (i + 1) (.quoted i quote false) braces (spell body ++ quote :: cs) := by
    rw [nonCodeSpansFrom.eq_def]
    simp only [if_pos hquote]
  have hclose : ∀ j, nonCodeSpansFrom j (.quoted i quote false) braces (quote :: cs) =
      ⟨i, j + 1⟩ :: nonCodeSpansFrom (j + 1) .code braces cs := by
    intro j
    rw [nonCodeSpansFrom.eq_def]
    rcases hquote with rfl | rfl <;> simp
  rw [hopen, quoted_spell hbody, hclose, show i + 1 + (spell body).length + 1 = i + (spell body).length + 2 by omega]

theorem backtick (h : At spans i .code braces ('\x60' :: cs)) : At spans (i + 1) (.template i false) braces cs :=
  h.move (Nat.le_succ i) (by simp [nonCodeSpansFrom])

theorem brace (h : At spans i .code (0 :: braces) ('\x7d' :: cs)) : At spans (i + 1) (.template i false) braces cs :=
  h.move (Nat.le_succ i) (by simp [nonCodeSpansFrom])

theorem template_plain {c : Char} (htick : c ≠ '\x60') (hslash : c ≠ '\\') (hcode : c = '$' → cs.head? ≠ some '\x7b')
    (i : Nat) : nonCodeSpansFrom i (.template start false) braces (c :: cs) =
      nonCodeSpansFrom (i + 1) (.template start false) braces cs := by
  rw [nonCodeSpansFrom.eq_def]
  simp only [Bool.false_eq_true, if_false, if_neg hslash, if_neg htick]
  split
  · rename_i hc
    split
    · exact absurd rfl (hcode hc)
    · rfl
  · rfl

theorem template_escaped (c : Char) (i : Nat) : nonCodeSpansFrom i (.template start false) braces ('\\' :: c :: cs) =
    nonCodeSpansFrom (i + 2) (.template start false) braces cs := by
  rw [nonCodeSpansFrom.eq_def]
  simp only [Bool.false_eq_true, if_false, if_true]
  rw [nonCodeSpansFrom.eq_def]
  rfl

theorem template_spell {text : List Glyph} (h : Glyph.Literal text) (hcs : cs.head? ≠ some '\x7b') (i : Nat) :
    nonCodeSpansFrom i (.template start false) braces (spell text ++ cs) =
      nonCodeSpansFrom (i + (spell text).length) (.template start false) braces cs := by
  induction text generalizing i with
  | nil => rfl
  | cons g text ih =>
    cases g with
    | plain c =>
      obtain ⟨htick, hslash, hdollar, hrest⟩ := h
      have hcode : c = '$' → (spell text ++ cs).head? ≠ some '\x7b' := by
        intro hc
        cases text with
        | nil => exact hcs
        | cons g text =>
          cases g with
          | plain d => simpa [spell, Glyph.chars] using (hdollar hc).1
          | escaped d => simp [spell, Glyph.chars]
      rw [show spell (.plain c :: text) = c :: spell text from rfl, List.cons_append, template_plain htick hslash hcode,
        ih hrest, List.length_cons]
      congr 1
      omega
    | escaped c =>
      rw [show spell (.escaped c :: text) = '\\' :: c :: spell text from rfl, List.cons_append, List.cons_append,
        template_escaped, ih h, List.length_cons, List.length_cons]
      congr 1
      omega

theorem text_last {text : List Glyph} (htext : Glyph.Literal text)
    (h : At spans i (.template start false) braces (spell text ++ '\x60' :: cs)) :
    Held spans start (i + (spell text).length + 1) ∧ At spans (i + (spell text).length + 1) .code braces cs := by
  refine h.found (by omega) ?_
  rw [template_spell htext (by simp), nonCodeSpansFrom.eq_def]
  simp

theorem text_code {text : List Glyph} (htext : Glyph.Literal text)
    (h : At spans i (.template start false) braces (spell text ++ '$' :: '\x7b' :: cs)) :
    Held spans start (i + (spell text).length + 2) ∧ At spans (i + (spell text).length + 2) .code (0 :: braces) cs := by
  refine h.found (by omega) ?_
  rw [template_spell htext (by simp), nonCodeSpansFrom.eq_def]
  simp

end At

theorem le_start {low i : Nat} {region : Region} {braces : List Nat} {cs : List Char}
    (hi : low ≤ i) (hregion : match region with
      | .code => True
      | .quoted start .. => low ≤ start
      | .template start _ => low ≤ start) : ∀ s ∈ nonCodeSpansFrom i region braces cs, low ≤ s.start := by
  fun_induction nonCodeSpansFrom i region braces cs <;> grind

theorem At.not_inSpans {spans : List Span} {i : Nat} {braces : List Nat} {c : Char} {cs : List Char}
    (h : At spans i .code braces (c :: cs)) (hc : c ∉ breaks) : inSpans spans i = false := by
  obtain ⟨found, hspans, hfound⟩ := h
  have hskip : nonCodeSpansFrom i .code braces (c :: cs) = nonCodeSpansFrom (i + 1) .code braces cs := by
    simp only [breaks, List.mem_cons, List.not_mem_nil, or_false, not_or] at hc
    obtain ⟨h₁, h₂, h₃, h₄, h₅, _⟩ := hc
    cases braces <;> simp [nonCodeSpansFrom, h₁, h₂, h₃, h₄, h₅]
  rw [hspans, hskip, inSpans, List.any_eq_false]
  intro s hs
  simp only [Bool.and_eq_true, decide_eq_true_eq, not_and]
  intro hstart
  rcases List.mem_append.1 hs with hs | hs
  · exact Nat.not_lt.2 (hfound s hs)
  · have := le_start (Nat.le_refl (i + 1)) trivial s hs
    omega

/-- The scan comes out of the text as it came in. -/
def Transparent (xs : List Char) : Prop := ∀ spans i braces cs, At spans i .code braces (xs ++ cs) →
  At spans (i + xs.length) .code braces cs

namespace Transparent

theorem append {xs ys : List Char} (hx : Transparent xs) (hy : Transparent ys) : Transparent (xs ++ ys) := by
  intro spans i braces cs h
  rw [List.append_assoc] at h
  rw [List.length_append, ← Nat.add_assoc]
  exact hy _ _ _ _ (hx _ _ _ _ h)

theorem of_silent {xs : List Char} (h : Silent xs) : Transparent xs := fun _ _ _ _ hat => hat.silent h

theorem cons {c : Char} {xs : List Char} (hc : c ∉ ['"', '\'', '\x60', '\x7b', '\x7d']) (h : Transparent xs) :
    Transparent (c :: xs) := by
  have hx : Transparent [c] := fun _ _ _ _ hat => hat.skip hc
  exact hx.append h

theorem of_atom {a : Atom} {next : List Char} (h : a.Fits next) : Transparent a.chars := by
  cases a with
  | quoted quote body =>
    intro spans i braces cs hat
    rw [Atom.chars, List.cons_append, List.append_assoc] at hat
    have hnext := (hat.quoted h.1 h.2).2
    rwa [Atom.chars, List.length_cons, List.length_append, List.length_singleton, Nat.add_assoc, ← Nat.add_assoc i]
  | _ => exact of_silent (h.silent (by rintro _ _ ⟨⟩))

theorem backticks {xs ys : List Char} (hx : ∀ spans i start braces cs,
      At spans i (.template start false) braces (xs ++ '\x60' :: cs) → At spans (i + xs.length + 1) .code braces cs)
    (hy : Transparent ys) : Transparent ('\x60' :: (xs ++ '\x60' :: ys)) := by
  intro spans i braces cs h
  simp only [List.cons_append, List.append_assoc] at h
  have hlast := hy _ _ _ _ (hx _ _ _ _ _ h.backtick)
  simp only [List.length_cons, List.length_append]
  rwa [show i + 1 + xs.length + 1 + ys.length = i + (xs.length + (ys.length + 1) + 1) by omega] at hlast

end Transparent

theorem Bracket.silent (b : Bracket) : b.opening ∉ ['"', '\'', '\x60', '\x7b', '\x7d'] ∧
    b.closing ∉ ['"', '\'', '\x60', '\x7b', '\x7d'] := by
  cases b <;> decide

mutual

theorem Source.Spells.transparent {names : List String} : ∀ {src : Source} {nesting : Nat} {next : List Char},
    src.Spells names nesting next → Transparent src.chars
  | .done _, _, _, hgap => .of_silent hgap.silent
  | .leaf _ _ _, _, _, ⟨hgap, hatom, hrest⟩ =>
    .append (.of_silent hgap.silent) (.append (.of_atom hatom) hrest.transparent)
  | .template gap body rest, _, _, ⟨hgap, hbody, hrest⟩ => by
    exact .append (.of_silent hgap.silent) (.backticks (fun _ _ _ _ _ h => hbody.at_code h) hrest.transparent)
  | .group _ bracket inner rest, _, _, ⟨hgap, hinner, hrest⟩ =>
    .append (.of_silent hgap.silent) (.cons bracket.silent.1 (.append hinner.transparent (.cons bracket.silent.2
      hrest.transparent)))
  | .call _ _ _ _, _, _, ⟨hgap, htarget, _, hargs, hrest⟩ =>
    .append (.of_silent hgap.silent) (.append (.of_silent htarget.silent) (.cons (by decide)
      (.append hargs.transparent (.cons (by decide) hrest.transparent))))

theorem Segments.Spells.at_code {names : List String} : ∀ {body : Segments}, body.Spells names →
    ∀ {spans : List Span} {i start : Nat} {braces : List Nat} {cs : List Char},
      At spans i (.template start false) braces (body.chars ++ '\x60' :: cs) →
      At spans (i + body.chars.length + 1) .code braces cs
  | .last _, htext, _, _, _, _, _, h => (h.text_last htext).2
  | .code text inner rest, ⟨htext, hinner, _, hrest⟩, spans, i, start, braces, cs, h => by
    simp only [Segments.chars, List.append_assoc, List.cons_append] at h
    have hcode := hinner.transparent _ _ _ _ (h.text_code htext).2
    have hlast := hrest.at_code hcode.brace
    simp only [Segments.chars, List.length_append, List.length_cons]
    rwa [show i + (spell text).length + 2 + inner.chars.length + 1 + rest.chars.length + 1 =
      i + ((spell text).length + (inner.chars.length + (rest.chars.length + 1) + 1 + 1)) + 1 by omega] at hlast

end

end LiveSheet.Await
