import LiveSheet.Proofs.Await.Literals
import LiveSheet.Proofs.Await.Matching

/-! What the pass makes of the places in a text. Looking back from a place it finds the dot or the
`await` that the piece before it was. Where it finds a call, a word was called. -/

namespace LiveSheet.Await

/-- The text before a place is what the lead says, and a word there has ended. -/
structure Stands (lead : Lead) (before next : List Char) : Prop where
  dot : Text.followsDot before = decide (lead = .dot)
  await : Text.followsWord "await" before = decide (lead = .await)
  parted : before.head?.any (fun c => Text.isWord c || Text.isNamePart c) = true →
    next.head?.any Text.isNamePart = false

theorem Lead.after_ofWord (word : String) : Lead.after (.ofWord word) = if word = "await" then .await else .other := by
  unfold Token.ofWord
  split
  · rename_i h
    subst h
    rfl
  · split
    · rename_i h
      subst h
      rfl
    · split
      · rename_i h
        rcases h with rfl | rfl <;> rfl
      · split
        · rename_i h
          subst h
          rfl
        · split
          · rfl
          · split <;> rfl

theorem followsWord_iff {word : String} {before : List Char} : Text.followsWord word before = true ↔
    ∃ rest, before.dropWhile Text.isBlank = word.toList.reverse ++ rest ∧ rest.head?.any Text.isNamePart = false := by
  rw [Text.followsWord, Text.beforeWord?]
  constructor
  · intro h
    split at h
    · rename_i hstarts
      obtain ⟨rest, hrest⟩ := List.isPrefixOf_iff_prefix.1 hstarts
      rw [← hrest, List.drop_left] at h
      dsimp only at h
      split at h
      · cases h
      · rename_i hpart
        exact ⟨rest, hrest.symm, by simpa using hpart⟩
    · cases h
  · rintro ⟨rest, hrest, hpart⟩
    rw [hrest, if_pos (List.isPrefixOf_iff_prefix.2 ⟨rest, rfl⟩), List.drop_left, if_neg (by simp [hpart])]
    rfl

namespace Stands

variable {lead : Lead} {before next : List Char}

theorem begin (next : List Char) : Stands .other [] next where
  dot := rfl
  await := rfl
  parted h := by cases h

theorem gap {gap : List Char} (hgap : Blank gap) (h : Stands lead before (gap ++ next)) :
    Stands lead (gap.reverse ++ before) next where
  dot := by
    rw [← h.dot, Text.followsDot, List.dropWhile_append_of_pos fun c hc => hgap c (List.mem_reverse.1 hc)]
    rfl
  await := by
    rw [← h.await, Text.followsWord, Text.beforeWord?,
      List.dropWhile_append_of_pos fun c hc => hgap c (List.mem_reverse.1 hc)]
    rfl
  parted hbefore := by
    cases hrev : gap.reverse with
    | nil =>
      obtain rfl := List.reverse_eq_nil_iff.1 hrev
      exact h.parted hbefore
    | cons c cs =>
      have hblank := hgap c (List.mem_reverse.1 (hrev ▸ List.mem_cons_self))
      rw [hrev] at hbefore
      simp [Text.not_isWord_of_isBlank hblank, Text.not_isNamePart_of_isBlank hblank] at hbefore

theorem of_last {c : Char} (hblank : Text.isBlank c = false) (hc : c ≠ 't')
    (hparted : Text.isWord c = true ∨ Text.isNamePart c = true → next.head?.any Text.isNamePart = false) :
    Stands (if c = '.' then .dot else .other) (c :: before) next where
  dot := by
    rw [Text.followsDot, List.dropWhile_cons_of_neg (by simp [hblank])]
    by_cases h : c = '.' <;> simp [h]
  await := by
    have hnot : Text.followsWord "await" (c :: before) = false := by
      refine Bool.eq_false_iff.2 fun h => ?_
      obtain ⟨rest, hrest, _⟩ := followsWord_iff.1 h
      rw [List.dropWhile_cons_of_neg (by simp [hblank])] at hrest
      exact hc (List.cons.inj hrest).1
    rw [hnot]
    by_cases h : c = '.' <;> simp [h]
  parted h := hparted (by simpa using h)

/-- The characters that end a mark, a bracket or a literal. -/
def ends : List Char := ['=', '!', '<', '>', '&', '|', '.', ',', ';', '?', ':', '+', '-', '*', '/', '%', '(', ')', '[',
  ']', '\x60', '\x7b', '\x7d', '"', '\'']

theorem of_ends {c : Char} (hc : c ∈ ends) (before next : List Char) :
    Stands (if c = '.' then .dot else .other) (c :: before) next := by
  have hends : ∀ d ∈ ends, Text.isBlank d = false ∧ d ≠ 't' ∧ Text.isWord d = false ∧ Text.isNamePart d = false := by
    decide
  obtain ⟨hblank, ht, hword, hpart⟩ := hends c hc
  refine of_last hblank ht ?_
  rintro (h | h)
  · rw [hword] at h
    cases h
  · rw [hpart] at h
    cases h

theorem bracket {c : Char} (hc : c ∈ ['(', ')', '[', ']', '\x60', '\x7b', '\x7d']) (before next : List Char) :
    Stands .other (c :: before) next := by
  have hbrackets : ∀ d ∈ ['(', ')', '[', ']', '\x60', '\x7b', '\x7d'], d ∈ ends ∧ d ≠ '.' := by decide
  have h := of_ends (hbrackets c hc).1 before next
  rwa [if_neg (hbrackets c hc).2] at h

theorem followsWord_word {text : List Char} (htext : ∀ c ∈ text, Text.isNamePart c = true) (hne : text ≠ [])
    (hbefore : before.head?.any Text.isNamePart = false) :
    Text.followsWord "await" (text.reverse ++ before) = decide (text = "await".toList) := by
  have hdrop : (text.reverse ++ before).dropWhile Text.isBlank = text.reverse ++ before := by
    cases hrev : text.reverse with
    | nil => exact absurd (List.reverse_eq_nil_iff.1 hrev) hne
    | cons c cs =>
      have hc := htext c (List.mem_reverse.1 (hrev ▸ List.mem_cons_self))
      rw [List.cons_append, List.dropWhile_cons_of_neg (by simp [not_isBlank_of_isNamePart hc])]
  rw [Bool.eq_iff_iff, followsWord_iff, hdrop, decide_eq_true_eq]
  constructor
  · rintro ⟨rest, hrest, hpart⟩
    rcases List.append_eq_append_iff.1 hrest with ⟨xs, hword, hxs⟩ | ⟨xs, hword, hxs⟩
    · cases xs with
      | nil => exact List.reverse_inj.1 (by rw [hword, List.append_nil])
      | cons x xs =>
        have hletters : ∀ d ∈ "await".toList.reverse, Text.isNamePart d = true := by decide
        have hx := hletters x (hword ▸ List.mem_append_right _ List.mem_cons_self)
        rw [hxs, List.cons_append, List.head?_cons, Option.any_some, hx] at hbefore
        cases hbefore
    · cases xs with
      | nil => exact List.reverse_inj.1 (by rw [hword, List.append_nil])
      | cons x xs =>
        have hx := htext x (List.mem_reverse.1 (hword ▸ List.mem_append_right _ List.mem_cons_self))
        rw [hxs, List.cons_append, List.head?_cons, Option.any_some, hx] at hpart
        cases hpart
  · rintro rfl
    exact ⟨before, rfl, hbefore⟩

theorem word {text : List Char} (htext : (Atom.word text).Fits next) (h : Stands lead before (text ++ next)) :
    Stands (.after (Atom.word text).token) (text.reverse ++ before) next := by
  obtain ⟨⟨c, rest, rfl, hc⟩, hall, hnext⟩ := htext
  have hbefore : before.head?.any Text.isNamePart = false := by
    refine Bool.eq_false_iff.2 fun hpart => ?_
    have hnot := h.parted (by
      cases hhead : before.head? with
      | none => simp [hhead] at hpart
      | some d => simpa [hhead] using Or.inr (by simpa [hhead] using hpart))
    rw [List.cons_append, List.head?_cons, Option.any_some, Text.isNamePart_of_isNameStart hc] at hnot
    cases hnot
  have hafter := Lead.after_ofWord (String.ofList (c :: rest))
  refine ⟨?_, ?_, fun _ => hnext⟩
  · cases hrev : (c :: rest).reverse with
    | nil => exact absurd (List.reverse_eq_nil_iff.1 hrev) (List.cons_ne_nil c rest)
    | cons d ds =>
      have hd := hall d (List.mem_reverse.1 (hrev ▸ List.mem_cons_self))
      have hdot : d ≠ '.' := by
        rintro rfl
        exact absurd hd (by decide)
      rw [List.cons_append, Text.followsDot, List.dropWhile_cons_of_neg (by simp [not_isBlank_of_isNamePart hd]),
        Atom.token, hafter]
      split <;> simp [hdot]
  · rw [followsWord_word hall (List.cons_ne_nil c rest) hbefore, Atom.token, hafter]
    split
    · rename_i heq
      have hchars := congrArg String.toList heq
      rw [String.toList_ofList] at hchars
      simp [hchars]
    · rename_i hne
      have hchars : c :: rest ≠ "await".toList := by
        intro heq
        rw [heq, String.ofList_toList] at hne
        exact hne rfl
      simp only [hchars, decide_false, reduceCtorEq]

theorem mark {m : Mark} (before next : List Char) : Stands (.after m.token) (m.chars.reverse ++ before) next := by
  obtain ⟨c, cs, hchars, hc, hlead⟩ : ∃ c cs, m.chars.reverse = c :: cs ∧ c ∈ ends ∧
      Lead.after m.token = if c = '.' then .dot else .other := by
    cases m <;> exact ⟨_, _, rfl, by decide, rfl⟩
  rw [hchars, hlead]
  exact of_ends hc (cs ++ before) next

theorem atom {a : Atom} (ha : a.Fits next) (h : Stands lead before (a.chars ++ next)) :
    Stands (.after a.token) (a.chars.reverse ++ before) next := by
  cases a with
  | word text => exact word ha h
  | mark m => exact mark before next
  | number first text digits value =>
    obtain ⟨_, _, _, hlast, hnext, _⟩ := ha
    rw [← List.head?_reverse] at hlast
    rw [Atom.chars]
    cases hrev : (first :: text).reverse with
    | nil => exact absurd (List.reverse_eq_nil_iff.1 hrev) (List.cons_ne_nil first text)
    | cons c cs =>
      have hc : c.isDigit = true ∨ c = '_' := by simpa [hrev] using hlast
      have hpart : Text.isNamePart c = true := by
        rcases hc with hc | rfl
        · exact Text.isNamePart_of_isDigit hc
        · decide
      have hne : ∀ d, d.isDigit = false → d ≠ '_' → c ≠ d := by
        rintro d hdigit hunder rfl
        rcases hc with hc | hc
        · rw [hdigit] at hc
          cases hc
        · exact hunder hc
      have h : Stands (if c = '.' then .dot else .other) (c :: (cs ++ before)) next :=
        of_last (not_isBlank_of_isNamePart hpart) (hne 't' (by decide) (by decide)) fun _ => hnext
      rwa [if_neg (hne '.' (by decide) (by decide))] at h
  | quoted quote body =>
    have hrev : (Atom.quoted quote body).chars.reverse ++ before =
        quote :: ((quote :: spell body).reverse ++ before) := by
      rw [Atom.chars, ← List.cons_append, List.reverse_append]
      rfl
    have hquote : quote ∈ ends ∧ quote ≠ '.' := by
      rcases ha.1 with rfl | rfl <;> decide
    have h := of_ends hquote.1 ((quote :: spell body).reverse ++ before) next
    rw [if_neg hquote.2] at h
    rw [hrev]
    exact h

end Stands

theorem Atom.Fits.head {a : Atom} {next : List Char} (h : a.Fits next) : ∃ c cs, a.chars = c :: cs ∧ c ≠ '(' ∧
    (c = '.' → a = .mark .dot ∨ cs.head?.any Char.isDigit = true) ∧
    (Text.isVariableStart c = true → ∃ text, a = .word text) := by
  cases a with
  | word text =>
    obtain ⟨⟨c, rest, rfl, hc⟩, _⟩ := h
    refine ⟨c, rest, rfl, ?_, ?_, fun _ => ⟨_, rfl⟩⟩
    · rintro rfl
      exact absurd hc (by decide)
    · rintro rfl
      exact absurd hc (by decide)
  | mark m =>
    obtain ⟨c, cs, hchars, hparen, hdot, hc⟩ : ∃ c cs, m.chars = c :: cs ∧ c ≠ '(' ∧ (c = '.' → m = .dot) ∧
        Text.isVariableStart c = false := by
      cases m <;> exact ⟨_, _, rfl, by decide, by simp, by decide⟩
    refine ⟨c, cs, hchars, hparen, fun h => Or.inl (hdot h ▸ rfl), fun h => ?_⟩
    rw [hc] at h
    cases h
  | number first text digits value =>
    refine ⟨first, text, rfl, ?_, ?_, ?_⟩
    all_goals rcases h.1 with hdigit | ⟨rfl, htext⟩
    · rintro rfl
      exact absurd hdigit (by decide)
    · decide
    · rintro rfl
      exact absurd hdigit (by decide)
    · exact fun _ => Or.inr htext
    · intro hc
      rw [not_isDigit_of_isNameStart (Text.isNameStart_of_isVariableStart hc)] at hdigit
      cases hdigit
    · intro hc
      exact absurd hc (by decide)
  | quoted quote body =>
    have hquote : quote ≠ '(' ∧ quote ≠ '.' ∧ Text.isVariableStart quote = false := by
      rcases h.1 with rfl | rfl <;> decide
    refine ⟨quote, _, rfl, hquote.1, fun h => absurd h hquote.2.1, fun h => ?_⟩
    rw [hquote.2.2] at h
    cases h

/-- The text is the end, or a bracket or an interpolation ends with it. -/
def Ends (next : List Char) : Prop := ∀ c, next.head? = some c → c ∈ [')', ']', '\x7d']

namespace Source

def gap : Source → List Char
  | .done gap | .leaf gap .. | .template gap .. | .group gap .. | .call gap .. => gap

def body (next : List Char) : Source → List Char
  | .done _ => next
  | .leaf _ atom rest => atom.chars ++ (rest.chars ++ next)
  | .template _ body rest => '\x60' :: (body.chars ++ '\x60' :: (rest.chars ++ next))
  | .group _ bracket inner rest => bracket.opening :: (inner.chars ++ bracket.closing :: (rest.chars ++ next))
  | .call _ target args rest => target.chars ++ '(' :: (args.chars ++ ')' :: (rest.chars ++ next))

theorem chars_eq (src : Source) (next : List Char) : src.chars ++ next = src.gap ++ src.body next := by
  cases src <;> simp [chars, gap, body]

variable {names : List String} {nesting : Nat} {next : List Char}

theorem Spells.blank_gap {src : Source} (h : src.Spells names nesting next) : Blank src.gap := by
  cases src with
  | done gap => exact h
  | _ => exact h.1

theorem Spells.body_head {src : Source} (h : src.Spells names nesting next) (hnext : Ends next) :
    (src.body next).head?.any Text.isBlank = false := by
  cases src with
  | done gap =>
    cases next with
    | nil => rfl
    | cons c next =>
      have hends : ∀ d ∈ [')', ']', '\x7d'], Text.isBlank d = false := by decide
      simpa [body] using hends c (hnext c rfl)
  | leaf gap atom rest =>
    obtain ⟨c, cs, hchars, _, hblank, _⟩ := h.2.1.read
    simpa [body, hchars] using hblank
  | template gap inner rest => rfl
  | group gap bracket inner rest => cases bracket <;> rfl
  | call gap target args rest =>
    obtain ⟨c, cs, hchars, hc⟩ := h.2.1.exists_cons
    have hpart := Text.isNamePart_of_isVariablePart (Text.isVariablePart_of_isVariableStart hc)
    simpa [body, hchars] using not_isBlank_of_isNamePart hpart

theorem Spells.body_of_eq {src : Source} (h : src.Spells names nesting next) (hnext : Ends next) {gap r : List Char}
    {c : Char} (hgap : Blank gap) (hc : Text.isBlank c = false) (heq : src.chars ++ next = gap ++ c :: r) :
    src.gap = gap ∧ src.body next = c :: r := by
  rw [chars_eq] at heq
  obtain ⟨htake, hdrop⟩ := takeWhile_append_of_stop h.blank_gap (h.body_head hnext)
  obtain ⟨htake', hdrop'⟩ := takeWhile_append_of_stop hgap (show (c :: r).head?.any Text.isBlank = false by simpa using hc)
  rw [heq, htake'] at htake
  rw [heq, hdrop'] at hdrop
  exact ⟨htake.symm, hdrop.symm⟩

theorem Spells.of_paren {src : Source} (h : src.Spells names nesting next) (hnext : Ends next) {gap r : List Char}
    (hgap : Blank gap) (heq : src.chars ++ next = gap ++ '(' :: r) :
    ∃ inner rest, src = .group gap .round inner rest := by
  obtain ⟨rfl, hbody⟩ := h.body_of_eq hnext hgap (by decide) heq
  cases src with
  | done gap => exact absurd (hnext '(' (congrArg List.head? hbody)) (by decide)
  | leaf gap atom rest =>
    obtain ⟨c, cs, hchars, hc, _⟩ := h.2.1.head
    rw [body, hchars] at hbody
    exact absurd (List.cons.inj hbody).1 hc
  | template gap inner rest => cases hbody
  | group gap bracket inner rest =>
    cases bracket with
    | round => exact ⟨inner, rest, rfl⟩
    | square => cases hbody
  | call gap target args rest =>
    obtain ⟨c, cs, hchars, hc⟩ := h.2.1.exists_cons
    rw [body, hchars] at hbody
    cases hbody
    cases hc

theorem Spells.of_dot {src : Source} (h : src.Spells names nesting next) (hnext : Ends next) {gap r : List Char}
    (hgap : Blank gap) (hr : r.head?.any Char.isDigit = false) (heq : src.chars ++ next = gap ++ '.' :: r) :
    ∃ rest, src = .leaf gap (.mark .dot) rest ∧ rest.chars ++ next = r := by
  obtain ⟨rfl, hbody⟩ := h.body_of_eq hnext hgap (by decide) heq
  cases src with
  | done gap => exact absurd (hnext '.' (congrArg List.head? hbody)) (by decide)
  | leaf gap atom rest =>
    obtain ⟨c, cs, hchars, _, hdot, _⟩ := h.2.1.head
    rw [body, hchars] at hbody
    obtain ⟨rfl, hrest⟩ := List.cons.inj hbody
    rcases hdot rfl with rfl | hdigit
    · obtain ⟨_, rfl⟩ := List.cons.inj hchars
      exact ⟨rest, rfl, hrest⟩
    · cases cs with
      | nil => cases hdigit
      | cons d cs =>
        rw [← hrest] at hr
        rw [show (d :: cs).head?.any Char.isDigit = _ from hr] at hdigit
        cases hdigit
  | template gap inner rest => cases hbody
  | group gap bracket inner rest => cases bracket <;> cases hbody
  | call gap target args rest =>
    obtain ⟨c, cs, hchars, hc⟩ := h.2.1.exists_cons
    rw [body, hchars] at hbody
    cases hbody
    cases hc

theorem Spells.of_word {src : Source} (h : src.Spells names nesting next) (hnext : Ends next) {gap r : List Char}
    {c : Char} (hgap : Blank gap) (hc : Text.isVariableStart c = true) (heq : src.chars ++ next = gap ++ c :: r) :
    (∃ text rest, src = .leaf gap (.word text) rest ∧ text ++ (rest.chars ++ next) = c :: r) ∨
      ∃ target args rest, src = .call gap target args rest := by
  have hpart := Text.isNamePart_of_isVariablePart (Text.isVariablePart_of_isVariableStart hc)
  obtain ⟨rfl, hbody⟩ := h.body_of_eq hnext hgap (not_isBlank_of_isNamePart hpart) heq
  cases src with
  | done gap =>
    have hends : ∀ d ∈ [')', ']', '\x7d'], Text.isVariableStart d = false := by decide
    rw [hends c (hnext c (congrArg List.head? hbody))] at hc
    cases hc
  | leaf gap atom rest =>
    obtain ⟨d, cs, hchars, _, _, hword⟩ := h.2.1.head
    have hd : d = c := by
      rw [body, hchars] at hbody
      exact (List.cons.inj hbody).1
    obtain ⟨text, rfl⟩ := hword (hd ▸ hc)
    exact Or.inl ⟨text, rest, rfl, hbody⟩
  | template gap inner rest =>
    cases hbody
    cases hc
  | group gap bracket inner rest =>
    cases bracket <;> cases hbody <;> cases hc
  | call gap target args rest => exact Or.inr ⟨target, args, rest, rfl⟩

end Source

theorem namePart_inj {xs ys r r' : List Char} (hxs : ∀ c ∈ xs, Text.isNamePart c = true)
    (hys : ∀ c ∈ ys, Text.isNamePart c = true) (hr : r.head?.any Text.isNamePart = false)
    (hr' : r'.head?.any Text.isNamePart = false) (heq : xs ++ r = ys ++ r') : xs = ys ∧ r = r' := by
  obtain ⟨htake, hdrop⟩ := takeWhile_append_of_stop hxs hr
  obtain ⟨htake', hdrop'⟩ := takeWhile_append_of_stop hys hr'
  rw [heq, htake'] at htake
  rw [heq, hdrop'] at hdrop
  exact ⟨htake.symm, hdrop.symm⟩

theorem Identifier.isNamePart {text : List Char} (h : Identifier text) : ∀ c ∈ text, Text.isNamePart c = true := by
  obtain ⟨_, _, _, _, hall⟩ := h.exists_cons
  exact fun c hc => Text.isNamePart_of_isVariablePart (hall c hc)

theorem Source.calls_of_callee {names : List String} {nesting : Nat} {lead : Lead} {next word r : List Char}
    {src : Source} {t : Target} (hsrc : src.Spells names nesting next) (hclear : src.Clear names nesting lead)
    (hnext : Ends next) (hword : ∀ c ∈ word, Text.isNamePart c = true)
    (hstop : (src.chars ++ next).head?.any Text.isNamePart = false) (ht : t.Fits names)
    (heq : word ++ (src.chars ++ next) = t.chars ++ '(' :: r) : src.Calls names word := by
  cases t with
  | name text gap =>
    obtain ⟨hmem, htext, hgap⟩ := ht
    rw [Target.chars, List.append_assoc] at heq
    obtain ⟨rfl, hrest⟩ := namePart_inj hword htext.isNamePart hstop (head_not_isNamePart hgap (by rfl)) heq
    obtain ⟨inner, rest, rfl⟩ := hsrc.of_paren hnext hgap hrest
    exact .name hmem
  | path owner gap₁ gap₂ text gap₃ =>
    obtain ⟨hmem, howner, htext, hgap₁, hgap₂, hgap₃⟩ := ht
    simp only [Target.chars, List.append_assoc, List.cons_append] at heq
    obtain ⟨rfl, hrest⟩ := namePart_inj hword howner.isNamePart hstop (head_not_isNamePart hgap₁ (by rfl)) heq
    obtain ⟨c, cs, rfl, hc, _⟩ := htext.exists_cons
    have hdigit : (gap₂ ++ (c :: cs ++ (gap₃ ++ '(' :: r))).head?.any Char.isDigit = false := by
      cases gap₂ with
      | nil => exact not_isDigit_of_isNameStart (Text.isNameStart_of_isVariableStart hc)
      | cons d gap₂ =>
        refine Bool.eq_false_iff.2 fun hd => ?_
        have hpart := Text.not_isNamePart_of_isBlank (hgap₂ d List.mem_cons_self)
        rw [Text.isNamePart_of_isDigit hd] at hpart
        cases hpart
    obtain ⟨rest, rfl, hmember⟩ := hsrc.of_dot hnext hgap₁ hdigit hrest
    obtain ⟨_, _, hbehind⟩ := hsrc
    rcases hbehind.of_word hnext hgap₂ hc hmember with ⟨text, rest, rfl, htext'⟩ | ⟨target, args, rest, rfl⟩
    · obtain ⟨_, hfits, hend⟩ := hbehind
      obtain ⟨rfl, hparen⟩ := namePart_inj hfits.2.1 htext.isNamePart hfits.2.2 (head_not_isNamePart hgap₃ (by rfl)) htext'
      obtain ⟨inner, rest, rfl⟩ := hend.of_paren hnext hgap₃ hparen
      exact .member hmem
    · exact absurd rfl hclear.2.2.1

end LiveSheet.Await
