import LiveSheet.Proofs.Await.Lexing

/-! Awaiting the calls of a text leaves it readable. The characters that are put in open no brace and
continue no token: where a call gets its `await`, a parenthesis now stands behind what a name stood
behind. -/

namespace LiveSheet.Await

/-- Whatever the first text does not continue, the second does not continue either. -/
structure Looser (next next' : List Char) : Prop where
  part : next.head?.any Text.isNamePart = false → next'.head?.any Text.isNamePart = false
  digit : next.head?.any Char.isDigit = false → next'.head?.any Char.isDigit = false
  equal : next'.head? = some '=' → next.head? = some '='
  slash : next'.head? = some '/' → next.head? = some '/'
  point : startsPoint next = false → startsPoint next' = false

namespace Looser

theorem refl (next : List Char) : Looser next next where
  part h := h
  digit h := h
  equal h := h
  slash h := h
  point h := h

theorem of_head {c : Char} (hc : c ≠ '.') (xs ys : List Char) : Looser (c :: xs) (c :: ys) where
  part h := h
  digit h := h
  equal h := h
  slash h := h
  point _ := by
    unfold startsPoint
    split
    · rename_i heq
      cases heq
      exact absurd rfl hc
    · rfl

theorem of_dot {next next' : List Char} (h : Looser next next') : Looser ('.' :: next) ('.' :: next') where
  part h := h
  digit h := h
  equal h := h
  slash h := h
  point := by
    intro hpoint
    have hnext : next.head?.any Char.isDigit = false := by
      cases next with
      | nil => rfl
      | cons d next => exact hpoint
    have hnext' := h.digit hnext
    cases next' with
    | nil => rfl
    | cons d next' => exact hnext'

theorem append {next next' : List Char} (h : Looser next next') (xs : List Char) : Looser (xs ++ next) (xs ++ next') := by
  induction xs with
  | nil => exact h
  | cons x xs ih =>
    by_cases hx : x = '.'
    · exact hx ▸ ih.of_dot
    · exact of_head hx _ _

theorem of_bracket {c : Char} (hc : c = '(' ∨ c = ')' ∨ c = '\x7d') (next rest : List Char) :
    Looser next (c :: rest) where
  part _ := by rcases hc with rfl | rfl | rfl <;> rfl
  digit _ := by rcases hc with rfl | rfl | rfl <;> rfl
  equal h := by rcases hc with rfl | rfl | rfl <;> exact absurd (Option.some.inj h) (by decide)
  slash h := by rcases hc with rfl | rfl | rfl <;> exact absurd (Option.some.inj h) (by decide)
  point _ := by rcases hc with rfl | rfl | rfl <;> rfl

theorem of_nil (next : List Char) : Looser next [] where
  part _ := rfl
  digit _ := rfl
  equal h := by cases h
  slash h := by cases h
  point _ := rfl

end Looser

theorem Atom.Fits.looser {a : Atom} {next next' : List Char} (h : a.Fits next) (hnext : Looser next next') :
    a.Fits next' := by
  cases a with
  | word text => exact ⟨h.1, h.2.1, hnext.part h.2.2⟩
  | mark m =>
    have hequal : (next.head? == some '=') = false → (next'.head? == some '=') = false := by
      simpa using mt hnext.equal
    have hslash : (next.head? == some '/') = false → (next'.head? == some '/') = false := by
      simpa using mt hnext.slash
    cases m
    case assign | equal | bang | notEqual | less | greater => exact hequal h
    case slash => exact hslash h
    case dot => exact hnext.digit h
    all_goals rfl
  | number first text digits value =>
    obtain ⟨hfirst, htext, hvalue, hlast, hpart, hpoint⟩ := h
    exact ⟨hfirst, htext, hvalue, hlast, hnext.part hpart, hnext.point hpoint⟩
  | quoted quote body => exact h

theorem Source.looser {next next' : List Char} (h : Looser next next') : ∀ (src : Source) (await : Bool),
    Looser (src.chars ++ next) ((src.awaited await).chars ++ next')
  | .done gap, _ => h.append gap
  | .leaf gap atom rest, _ => by
    simp only [Source.awaited, Source.chars, List.append_assoc]
    exact ((Source.looser h rest _).append atom.chars).append gap
  | .template gap body rest, _ => by
    simp only [Source.awaited, Source.chars, List.append_assoc, List.cons_append]
    exact .append (.of_head (by decide) _ _) gap
  | .group gap bracket inner rest, _ => by
    simp only [Source.awaited, Source.chars, List.append_assoc, List.cons_append]
    exact .append (.of_head (by cases bracket <;> decide) _ _) gap
  | .call gap target args rest, true => by
    simp only [Source.awaited, if_true, Source.chars, List.append_assoc, List.cons_append]
    exact .append (.append (.of_head (by decide) _ _) target.chars) gap
  | .call gap target args rest, false => by
    simp only [Source.awaited, Bool.false_eq_true, if_false, Source.chars, List.append_assoc, List.cons_append]
    exact (Looser.of_bracket (Or.inl rfl) _ _).append gap

theorem openBraces_ne_zero {depth depth' : Nat} {cs : List Char} (hdepth : depth ≠ 0)
    (h : openBraces depth cs = some depth') : depth' ≠ 0 := by
  induction cs generalizing depth with
  | nil =>
    obtain rfl : depth = depth' := Option.some.inj h
    exact hdepth
  | cons c cs ih =>
    rw [openBraces] at h
    split at h
    · cases h
    · rename_i hne
      exact ih hne h

theorem openBraces_append (depth : Nat) (xs ys : List Char) :
    openBraces depth (xs ++ ys) = (openBraces depth xs).bind fun d => openBraces d ys := by
  induction xs generalizing depth with
  | nil => rfl
  | cons x xs ih =>
    rw [List.cons_append, openBraces, openBraces]
    split
    · rfl
    · exact ih _

/-- The texts open and close the same braces. -/
def SameBraces (xs ys : List Char) : Prop := ∀ depth, depth ≠ 0 → openBraces depth xs = openBraces depth ys

namespace SameBraces

theorem refl (xs : List Char) : SameBraces xs xs := fun _ _ => rfl

theorem append {xs xs' ys ys' : List Char} (hx : SameBraces xs xs') (hy : SameBraces ys ys') :
    SameBraces (xs ++ ys) (xs' ++ ys') := by
  intro depth hdepth
  rw [openBraces_append, openBraces_append, hx depth hdepth]
  cases h : openBraces depth xs' with
  | none => rfl
  | some d => exact hy d (openBraces_ne_zero hdepth h)

theorem cons {xs ys : List Char} (h : SameBraces xs ys) (c : Char) : SameBraces (c :: xs) (c :: ys) :=
  append (refl [c]) h

theorem skip {xs ys : List Char} (ws : List Char) (h : SameBraces xs ys) (hws : ∀ c ∈ ws, c ≠ '\x7b' ∧ c ≠ '\x7d') :
    SameBraces (ws ++ xs) ys := by
  induction ws with
  | nil => exact h
  | cons w ws ih =>
    intro depth hdepth
    obtain ⟨hopen, hclose⟩ := hws w List.mem_cons_self
    have hsame : Text.depthAfter depth w = depth := by rw [Text.depthAfter, if_neg hopen, if_neg hclose]
    rw [List.cons_append, openBraces, hsame, if_neg hdepth]
    exact ih (fun c hc => hws c (List.mem_cons_of_mem w hc)) depth hdepth

end SameBraces

mutual

theorem Source.sameBraces : ∀ (src : Source) (await : Bool), SameBraces (src.awaited await).chars src.chars
  | .done gap, _ => .refl gap
  | .leaf gap atom rest, _ => by
    simp only [Source.awaited, Source.chars]
    exact .append (.refl gap) (.append (.refl _) (Source.sameBraces rest _))
  | .template gap body rest, _ => by
    simp only [Source.awaited, Source.chars]
    exact .append (.refl gap) (.cons (.append (Segments.sameBraces body) (.cons (Source.sameBraces rest _) _)) _)
  | .group gap bracket inner rest, _ => by
    simp only [Source.awaited, Source.chars]
    exact .append (.refl gap) (.cons (.append (Source.sameBraces inner _) (.cons (Source.sameBraces rest _) _)) _)
  | .call gap target args rest, true => by
    simp only [Source.awaited, if_true, Source.chars]
    exact .append (.refl gap) (.append (.refl _)
      (.cons (.append (Source.sameBraces args _) (.cons (Source.sameBraces rest _) _)) _))
  | .call gap target args rest, false => by
    simp only [Source.awaited, Bool.false_eq_true, if_false, Source.chars, List.append_assoc, List.cons_append]
    refine .append (.refl gap) (.skip ['(', 'a', 'w', 'a', 'i', 't', ' '] ?_ (by decide))
    refine .append (.refl _) (.cons (.append (Source.sameBraces args _) (.cons ?_ _)) _)
    exact .skip [')'] (Source.sameBraces rest _) (by decide)

theorem Segments.sameBraces : ∀ body : Segments, SameBraces body.awaited.chars body.chars
  | .last text => .refl _
  | .code text inner rest => by
    simp only [Segments.awaited, Segments.chars]
    exact .append (.refl _) (.cons (.cons (.append (Source.sameBraces inner _) (.cons (Segments.sameBraces rest) _)) _) _)

end

theorem Source.Spells.looser {names : List String} : ∀ {src : Source} {nesting : Nat} {next next' : List Char},
    src.Spells names nesting next → Looser next next' → src.Spells names nesting next'
  | .done _, _, _, _, hgap, _ => hgap
  | .leaf _ _ rest, _, _, _, ⟨hgap, hatom, hrest⟩, h =>
    ⟨hgap, hatom.looser (h.append rest.chars), Source.Spells.looser hrest h⟩
  | .template _ _ _, _, _, _, ⟨hgap, hbody, hrest⟩, h => ⟨hgap, hbody, Source.Spells.looser hrest h⟩
  | .group _ bracket _ rest, _, _, _, ⟨hgap, hinner, hrest⟩, h =>
    ⟨hgap, Source.Spells.looser hinner (.append (h.append rest.chars) [bracket.closing]), Source.Spells.looser hrest h⟩
  | .call _ _ _ rest, _, _, _, ⟨hgap, htarget, hline, hargs, hrest⟩, h =>
    ⟨hgap, htarget, hline, Source.Spells.looser hargs (.append (h.append rest.chars) [')']), Source.Spells.looser hrest h⟩

mutual

theorem Source.Spells.awaited {names : List String} : ∀ {src : Source} {nesting nesting' : Nat} {next next' : List Char},
    src.Spells names nesting next → Looser next next' → (nesting' = 0 → nesting = 0) → ∀ await,
    (src.awaited await).Spells names nesting' next'
  | .done _, _, _, _, _, hgap, _, _, _ => hgap
  | .leaf _ atom rest, _, _, _, _, ⟨hgap, hatom, hrest⟩, h, hnesting, _ =>
    ⟨hgap, hatom.looser (rest.looser h _), Source.Spells.awaited hrest h hnesting _⟩
  | .template _ _ _, _, _, _, _, ⟨hgap, hbody, hrest⟩, h, hnesting, _ =>
    ⟨hgap, Segments.Spells.awaited hbody, Source.Spells.awaited hrest h hnesting _⟩
  | .group _ bracket _ rest, _, _, _, _, ⟨hgap, hinner, hrest⟩, h, hnesting, _ =>
    ⟨hgap, Source.Spells.awaited hinner (.append (rest.looser h _) [bracket.closing]) (by omega) _,
      Source.Spells.awaited hrest h hnesting _⟩
  | .call _ _ _ rest, _, _, _, _, ⟨hgap, htarget, hline, hargs, hrest⟩, h, hnesting, true => by
    rw [Source.awaited, if_pos rfl]
    exact ⟨hgap, htarget, fun hzero => hline (hnesting hzero),
      Source.Spells.awaited hargs (.append (rest.looser h _) [')']) (by omega) _,
      Source.Spells.awaited hrest h hnesting _⟩
  | .call gap target args rest, nesting, nesting', next, next', ⟨hgap, htarget, hline, hargs, hrest⟩, h, hnesting, false => by
    have hargs : (args.awaited false).Spells names (nesting' + 1 + 1)
        (')' :: ([] ++ ')' :: ((rest.awaited false).chars ++ next'))) :=
      Source.Spells.awaited hargs (.of_head (by decide) _ _) (by omega) _
    have hword : (Atom.word "await".toList).Fits ((Source.call [' '] target (args.awaited false) (.done [])).chars ++
        ')' :: ((rest.awaited false).chars ++ next')) := by
      refine ⟨⟨'a', _, rfl, by decide⟩, by decide, ?_⟩
      rw [Source.chars]
      rfl
    rw [Source.awaited, if_neg Bool.false_ne_true]
    refine ⟨hgap, ⟨List.forall_mem_nil _, hword, ?_, htarget, fun hzero => by omega, hargs, List.forall_mem_nil _⟩,
      Source.Spells.awaited hrest h hnesting _⟩
    intro c hc
    obtain rfl := List.mem_singleton.1 hc
    decide

theorem Segments.Spells.awaited {names : List String} : ∀ {body : Segments}, body.Spells names → body.awaited.Spells names
  | .last _, h => h
  | .code _ inner _, ⟨htext, hinner, hcode, hrest⟩ =>
    ⟨htext, Source.Spells.awaited hinner (.refl _) id _,
      (inner.sameBraces false 1 Nat.one_ne_zero).trans hcode, Segments.Spells.awaited hrest⟩

end

end LiveSheet.Await
