import LiveSheet.Proofs.Await.Literals

/-! How the pass finds the parenthesis that ends a call. It counts parentheses and takes what stands
between two quotes or two backticks for one literal, so it passes over a text that is even. -/

namespace LiveSheet.Await

open Text

theorem parenDistance_code {c : Char} (hopen : c ≠ '(') (hclose : c ≠ ')') (depth : Nat) (cs : List Char) :
    parenDistance depth .code (c :: cs) = (parenDistance depth (Quoting.code.after true c) cs).map (· + 1) := by
  rw [parenDistance, if_neg hopen, if_neg hclose]

/-- The parenthesis that ends a call is behind the text, if it does not count in the text. -/
def Balanced (xs : List Char) : Prop := ∀ depth cs, parenDistance (depth + 1) .code (xs ++ cs) =
  (parenDistance (depth + 1) .code cs).map (· + xs.length)

/-- The text does not end a literal. -/
def Within (quote : Char) (xs : List Char) : Prop := ∀ depth cs, parenDistance depth (.literal quote false) (xs ++ cs) =
  (parenDistance depth (.literal quote false) cs).map (· + xs.length)

theorem map_add (o : Option Nat) (m n : Nat) : (o.map (· + m)).map (· + n) = o.map (· + (n + m)) := by
  cases o with
  | none => rfl
  | some k => simp only [Option.map_some, Nat.add_assoc, Nat.add_comm m n]

theorem map_add_zero (o : Option Nat) : o.map (· + 0) = o := by cases o <;> rfl

namespace Within

variable {quote : Char}

theorem nil : Within quote [] := fun _ _ => (map_add_zero _).symm

theorem append {xs ys : List Char} (hx : Within quote xs) (hy : Within quote ys) : Within quote (xs ++ ys) := by
  intro depth cs
  rw [List.append_assoc, hx, hy, map_add, List.length_append]

theorem cons {c : Char} {xs : List Char} (hc : Within quote [c]) (hx : Within quote xs) : Within quote (c :: xs) :=
  append hc hx

theorem plain {c : Char} (hc : c ≠ quote) (hslash : c ≠ '\\') : Within quote [c] := by
  intro depth cs
  rw [List.singleton_append, parenDistance]
  · simp [Quoting.after, hslash, hc]
  · rintro ⟨⟩

theorem escaped (c : Char) : Within quote ['\\', c] := by
  intro depth cs
  rw [List.cons_append, List.singleton_append, parenDistance]
  · simp only [Quoting.after, if_true]
    rw [parenDistance]
    · rw [Option.map_map]
      rfl
    · rintro ⟨⟩
  · rintro ⟨⟩

theorem of_plain {xs : List Char} (h : ∀ c ∈ xs, c ≠ quote ∧ c ≠ '\\') : Within quote xs := by
  induction xs with
  | nil => exact nil
  | cons x xs ih =>
    obtain ⟨hx, hxs⟩ := List.forall_mem_cons.1 h
    exact cons (plain hx.1 hx.2) (ih hxs)

theorem spell {gs : List Glyph} (h : ∀ c, .plain c ∈ gs → c ≠ quote ∧ c ≠ '\\') : Within quote (spell gs) := by
  induction gs with
  | nil => exact nil
  | cons g gs ih =>
    have hrest := ih fun c hc => h c (List.mem_cons_of_mem g hc)
    cases g with
    | plain c =>
      obtain ⟨hc, hslash⟩ := h c List.mem_cons_self
      exact append (plain hc hslash) hrest
    | escaped c => exact append (escaped c) hrest

end Within

namespace Balanced

theorem append {xs ys : List Char} (hx : Balanced xs) (hy : Balanced ys) : Balanced (xs ++ ys) := by
  intro depth cs
  rw [List.append_assoc, hx, hy, map_add, List.length_append]

theorem cons {c : Char} {xs : List Char} (hc : c ∉ breaks) (hx : Balanced xs) : Balanced (c :: xs) := by
  intro depth cs
  simp only [breaks, List.mem_cons, List.not_mem_nil, or_false, not_or] at hc
  obtain ⟨h₁, h₂, h₃, _, _, _, hopen, hclose⟩ := hc
  have hcode : Quoting.code.after true c = .code := by simp [Quoting.after, opens, h₁, h₂, h₃]
  rw [List.cons_append, parenDistance_code hopen hclose, hcode, hx, map_add, List.length_cons, Nat.add_comm]

theorem of_silent {xs : List Char} (h : Silent xs) : Balanced xs := by
  induction xs with
  | nil => exact fun _ _ => (map_add_zero _).symm
  | cons x xs ih => exact cons (h x List.mem_cons_self) (ih fun c hc => h c (List.mem_cons_of_mem x hc))

theorem parens {xs ys : List Char} (hx : Balanced xs) (hy : Balanced ys) : Balanced ('(' :: (xs ++ ')' :: ys)) := by
  intro depth cs
  have hclose : parenDistance (depth + 1 + 1) .code (')' :: (ys ++ cs)) =
      (parenDistance (depth + 1) .code (ys ++ cs)).map (· + 1) := by
    rw [parenDistance, if_neg (by decide), if_pos rfl, if_neg (by omega), if_neg (by omega)]
    rfl
  simp only [List.cons_append, List.append_assoc]
  rw [parenDistance, if_pos rfl, hx, hclose, hy, map_add, map_add, map_add]
  simp only [List.length_cons, List.length_append]
  congr 1
  funext n
  omega

theorem literal {quote : Char} {xs ys : List Char} (hquote : quote = '"' ∨ quote = '\'' ∨ quote = '\x60')
    (hx : Within quote xs) (hy : Balanced ys) : Balanced (quote :: (xs ++ quote :: ys)) := by
  intro depth cs
  have hopen : ∀ zs, parenDistance (depth + 1) .code (quote :: zs) =
      (parenDistance (depth + 1) (.literal quote false) zs).map (· + 1) := by
    intro zs
    rcases hquote with rfl | rfl | rfl <;> exact parenDistance_code (by decide) (by decide) _ _
  have hclose : ∀ zs, parenDistance (depth + 1) (.literal quote false) (quote :: zs) =
      (parenDistance (depth + 1) .code zs).map (· + 1) := by
    intro zs
    rw [parenDistance]
    · rcases hquote with rfl | rfl | rfl <;> rfl
    · rintro ⟨⟩
  simp only [List.cons_append, List.append_assoc]
  rw [hopen, hx, hclose, hy, map_add, map_add, map_add]
  simp only [List.length_cons, List.length_append]
  congr 1
  funext n
  omega

end Balanced

theorem Glyph.Literal.plain {gs : List Glyph} (h : Literal gs) :
    ∀ c, .plain c ∈ gs → c ≠ '\x60' ∧ c ≠ '\\' := by
  induction gs with
  | nil => rintro _ ⟨⟩
  | cons g gs ih =>
    intro c hc
    cases g with
    | plain d =>
      obtain ⟨htick, hslash, _, hrest⟩ := h
      rcases List.mem_cons.1 hc with heq | hc
      · cases heq
        exact ⟨htick, hslash⟩
      · exact ih hrest c hc
    | escaped d =>
      rcases List.mem_cons.1 hc with heq | hc
      · cases heq
      · exact ih h c hc

theorem Within.of_silent {xs : List Char} (h : Silent xs) : Within '\x60' xs := by
  refine .of_plain fun c hc => ⟨?_, ?_⟩
  · rintro rfl
    exact h _ hc (by decide)
  · rintro rfl
    exact h _ hc (by decide)

theorem Within.of_atom {a : Atom} {next : List Char} (h : a.Fits next) (hchars : '\x60' ∉ a.chars) :
    Within '\x60' a.chars := by
  cases a with
  | quoted quote body =>
    obtain ⟨hquote, hbody⟩ := h
    have hmark : Within '\x60' [quote] := by
      rcases hquote with rfl | rfl <;> exact .plain (by decide) (by decide)
    refine .cons hmark (.append (.spell fun c hc => ⟨?_, (hbody _ hc).2.1⟩) hmark)
    rintro rfl
    refine hchars (List.mem_cons_of_mem quote (List.mem_append_left [quote] ?_))
    exact List.mem_flatMap.2 ⟨_, hc, List.mem_singleton_self _⟩
  | _ => exact .of_silent (h.silent (by rintro _ _ ⟨⟩))

theorem Source.Spells.within {names : List String} : ∀ {src : Source} {nesting : Nat} {next : List Char},
    src.Spells names nesting next → '\x60' ∉ src.chars → Within '\x60' src.chars
  | .done _, _, _, hgap, _ => .of_silent hgap.silent
  | .leaf gap atom rest, _, _, ⟨hgap, hatom, hrest⟩, h => by
    simp only [Source.chars, List.mem_append, not_or] at h ⊢
    exact .append (.of_silent hgap.silent) (.append (.of_atom hatom h.2.1) (hrest.within h.2.2))
  | .template gap body rest, _, _, _, h => by
    exact absurd (List.mem_append_right gap List.mem_cons_self) h
  | .group gap bracket inner rest, _, _, ⟨hgap, hinner, hrest⟩, h => by
    simp only [Source.chars, List.mem_append, List.mem_cons, not_or] at h ⊢
    have hopen : Within '\x60' [bracket.opening] := by cases bracket <;> exact .plain (by decide) (by decide)
    have hclose : Within '\x60' [bracket.closing] := by cases bracket <;> exact .plain (by decide) (by decide)
    exact .append (.of_silent hgap.silent) (.cons hopen (.append (hinner.within h.2.2.1)
      (.cons hclose (hrest.within h.2.2.2.2))))
  | .call gap target args rest, _, _, ⟨hgap, htarget, _, hargs, hrest⟩, h => by
    simp only [Source.chars, List.mem_append, List.mem_cons, not_or] at h ⊢
    exact .append (.of_silent hgap.silent) (.append (.of_silent htarget.silent)
      (.cons (.plain (by decide) (by decide)) (.append (hargs.within h.2.2.2.1)
        (.cons (.plain (by decide) (by decide)) (hrest.within h.2.2.2.2.2)))))

theorem Segments.Spells.within {names : List String} : ∀ {body : Segments}, body.Spells names → body.Opaque →
    Within '\x60' body.chars
  | .last _, htext, _ => .spell htext.plain
  | .code _ inner rest, ⟨htext, hinner, _, hrest⟩, ⟨hcode, hshut⟩ =>
    .append (.spell htext.plain) (.cons (.plain (by decide) (by decide)) (.cons (.plain (by decide) (by decide))
      (.append (hinner.within hcode) (.cons (.plain (by decide) (by decide)) (Segments.Spells.within hrest hshut)))))

theorem Balanced.of_atom {a : Atom} {next : List Char} (h : a.Fits next) : Balanced a.chars := by
  cases a with
  | quoted quote body =>
    obtain ⟨hquote, hbody⟩ := h
    have hnil : Balanced [] := .of_silent (List.forall_mem_nil _)
    exact .literal (hquote.imp_right Or.inl) (.spell fun c hc => ⟨(hbody _ hc).1, (hbody _ hc).2.1⟩) hnil
  | _ => exact .of_silent (h.silent (by rintro _ _ ⟨⟩))

theorem Source.Spells.balanced {names : List String} : ∀ {src : Source} {nesting : Nat} {next : List Char},
    src.Spells names nesting next → src.Even → Balanced src.chars
  | .done _, _, _, hgap, _ => .of_silent hgap.silent
  | .leaf _ _ _, _, _, ⟨hgap, hatom, hrest⟩, heven =>
    .append (.of_silent hgap.silent) (.append (.of_atom hatom) (hrest.balanced heven))
  | .template _ _ _, _, _, ⟨hgap, hbody, hrest⟩, ⟨hshut, heven⟩ =>
    .append (.of_silent hgap.silent) (.literal (Or.inr (Or.inr rfl)) (hbody.within hshut) (hrest.balanced heven))
  | .group _ .round _ _, _, _, ⟨hgap, hinner, hrest⟩, ⟨hinside, heven⟩ =>
    .append (.of_silent hgap.silent) (.parens (hinner.balanced hinside) (hrest.balanced heven))
  | .group _ .square _ _, _, _, ⟨hgap, hinner, hrest⟩, ⟨hinside, heven⟩ =>
    .append (.of_silent hgap.silent) (.cons (by decide) (.append (hinner.balanced hinside)
      (.cons (by decide) (hrest.balanced heven))))
  | .call _ _ _ _, _, _, ⟨hgap, htarget, _, hargs, hrest⟩, ⟨hinside, heven⟩ =>
    .append (.of_silent hgap.silent) (.append (.of_silent htarget.silent)
      (.parens (hargs.balanced hinside) (hrest.balanced heven)))

theorem splitParen_chars {xs : List Char} (h : Balanced xs) (rest : List Char) :
    splitParen (xs ++ ')' :: rest) = some (xs, rest) := by
  have hclose : parenDistance 1 .code (')' :: rest) = some 0 := by
    rw [parenDistance, if_neg (by decide), if_pos rfl, if_neg Nat.one_ne_zero, if_pos rfl]
  rw [splitParen, h 0, hclose]
  simp

end LiveSheet.Await
