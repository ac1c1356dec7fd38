import Mathlib.Data.List.Infix
import Mathlib.Data.List.TakeWhile
import LiveSheet.Proofs.Await.Lexing

/-! One token at a time. A token that is read takes up some characters of the text, and is read of them wherever they
stand and whatever line follows. Only the escaped line ends of its literals are not counted in the place behind it. -/

namespace LiveSheet.Token

open Await (Glyph spell)

/-- What may follow a line: nothing, or a line end. -/
def Ends (tail : List Char) : Prop := tail = [] ∨ ∃ rest, tail = '\n' :: rest

theorem Ends.nil : Ends [] := .inl rfl

theorem Ends.head_any {tail : List Char} (h : Ends tail) {f : Char → Bool} (hf : f '\n' = false) (cs : List Char) :
    (cs ++ tail).head?.any f = cs.head?.any f := by
  cases cs with
  | nil => rcases h with rfl | ⟨rest, rfl⟩ <;> simp [hf]
  | cons c cs => rfl

theorem Ends.head_ne {tail : List Char} (h : Ends tail) {c : Char} (hc : c ≠ '\n') {cs : List Char}
    (hcs : cs.head? ≠ some c) : (cs ++ tail).head? ≠ some c := by
  cases cs with
  | nil => rcases h with rfl | ⟨rest, rfl⟩ <;> simp [Ne.symm hc]
  | cons d cs => exact hcs

/-- The characters of a token, and those by which the place behind it is counted. -/
inductive Spelled : Token → List Char → List Char → Prop where
  | plain {t : Token} {text : List Char} (h : '\n' ∉ text) : Spelled t text text
  | quoted {quote : Char} {body : List Glyph} (hquote : quote = '"' ∨ quote = '\'') (hbody : ∀ g ∈ body, g.Inside quote) :
      Spelled (.string (String.ofList (body.map Glyph.value))) (quote :: (spell body ++ [quote]))
        (quote :: (body.flatMap Glyph.counted ++ [quote]))
  | template {body : List Segment} (h : Segmented (body.flatMap Segment.chars ++ ['\x60']) body []) :
      Spelled (.template (String.ofList (body.flatMap Segment.raw))) ('\x60' :: (body.flatMap Segment.chars ++ ['\x60']))
        ('\x60' :: (body.flatMap Segment.counted ++ ['\x60']))

theorem counted_glyph {g : Glyph} (h : ¬['\\', '\n'] <:+: g.chars) : g.counted = g.chars := by
  cases g with
  | plain c => rfl
  | escaped c =>
    refine if_neg ?_
    rintro rfl
    exact h List.infix_rfl

theorem Spelled.counted_eq {t : Token} {text counted : List Char} (h : Spelled t text counted)
    (hline : ¬['\\', '\n'] <:+: text) : counted = text := by
  have hpart : ∀ {α : Type} {f g : α → List Char} {xs : List α} {c : Char},
      (∀ x ∈ xs, ¬['\\', '\n'] <:+: g x → f x = g x) → ¬['\\', '\n'] <:+: c :: (xs.flatMap g ++ [c]) →
      xs.flatMap f = xs.flatMap g := by
    intro α f g xs c hparts hwhole
    refine congrArg List.flatten (List.map_congr_left fun x hx => hparts x hx fun hline => hwhole ?_)
    have hx : g x <:+: xs.flatMap g := List.infix_of_mem_flatten (List.mem_map_of_mem hx)
    exact (hline.trans hx).trans ⟨[c], [c], rfl⟩
  cases h with
  | plain => rfl
  | @quoted quote body _ _ =>
    have hbody : body.flatMap Glyph.counted = spell body :=
      hpart (fun g _ => counted_glyph) hline
    rw [hbody]
  | @template body _ =>
    have hsegment : ∀ s : Segment, ¬['\\', '\n'] <:+: s.chars → s.counted = s.chars := by
      rintro (g | inner) h
      · exact counted_glyph h
      · rfl
    have hbody : body.flatMap Segment.counted = body.flatMap Segment.chars :=
      hpart (fun s _ => hsegment s) hline
    rw [hbody]

theorem Spelled.unique {t t' : Token} {text text' counted counted' : List Char} (h : Spelled t text counted)
    (h' : Spelled t' text' counted') (heq : text = text') : counted = counted' := by
  by_cases hline : ['\\', '\n'] <:+: text
  · have hmem : '\n' ∈ text := hline.subset (by simp)
    cases h with
    | plain h => exact absurd hmem h
    | quoted hquote hbody =>
      cases h' with
      | plain h' => exact absurd (heq ▸ hmem) h'
      | quoted _ hbody' =>
        obtain ⟨rfl, htail⟩ := List.cons.inj heq
        rw [spell_unique hbody hbody' (List.append_cancel_right htail)]
      | template =>
        obtain ⟨rfl, -⟩ := List.cons.inj heq
        exact absurd hquote (by decide)
    | template hbody =>
      cases h' with
      | plain h' => exact absurd (heq ▸ hmem) h'
      | quoted hquote =>
        obtain ⟨rfl, -⟩ := List.cons.inj heq
        exact absurd hquote (by decide)
      | template hbody' =>
        have htail := (List.cons.inj heq).2
        rw [hbody.unique (htail ▸ hbody')]
  · rw [h.counted_eq hline, h'.counted_eq (heq ▸ hline), heq]

/-- The character with the text behind it is one token, and some characters are left. -/
structure Lexes (c : Char) (text left : List Char) (t : Token) (counted : List Char) : Prop where
  inner : t ≠ .eof ∧ t ≠ .newline
  spelled : Spelled t (c :: text) counted
  read : ∀ tail, Ends tail → ∀ p, Token.read c (text ++ (left ++ tail)) p = .ok ⟨t, left ++ tail, p.through counted⟩

theorem Lexes.unique {c : Char} {text text' left left' counted counted' : List Char} {t t' : Token}
    (h : Lexes c text left t counted) (h' : Lexes c text' left' t' counted') (heq : text ++ left = text' ++ left') :
    text = text' ∧ left = left' ∧ t = t' ∧ counted = counted' := by
  have hread := h.read [] .nil ⟨1, 1⟩
  have hread' := h'.read [] .nil ⟨1, 1⟩
  simp only [List.append_nil] at hread hread'
  rw [heq, hread'] at hread
  obtain ⟨rfl, rfl, -⟩ := Lexeme.mk.inj (Except.ok.inj hread)
  obtain rfl := List.append_cancel_right heq
  exact ⟨rfl, rfl, rfl, h.spelled.unique h'.spelled rfl⟩

/-- What a token that was read tells of the text behind its first character. -/
def Lexed (c : Char) (rest : List Char) (x : Lexeme) : Prop :=
  ∃ text counted, rest = text ++ x.rest ∧ Lexes c text x.rest x.token counted

variable {c : Char} {rest left : List Char} {t : Token} {p : Position} {x : Lexeme}

theorem Lexes.plain {text : List Char} (inner : t ≠ .eof ∧ t ≠ .newline) (hline : '\n' ∉ c :: text)
    (hread : ∀ tail, Ends tail → ∀ p,
      Token.read c (text ++ (left ++ tail)) p = .ok ⟨t, left ++ tail, p.right (text.length + 1)⟩) :
    Lexes c text left t (c :: text) := by
  refine ⟨inner, .plain hline, fun tail htail p => ?_⟩
  rw [hread tail htail, Position.through_of_not_mem hline, List.length_cons]

theorem lexed_comparison {alone compared : Token} (hc : c ≠ '\n') (halone : alone ≠ .eof ∧ alone ≠ .newline)
    (hcompared : compared ≠ .eof ∧ compared ≠ .newline)
    (hread : ∀ rest p, read c rest p = .ok (readComparison alone compared rest p)) (rest : List Char) (p : Position) :
    Lexed c rest (readComparison alone compared rest p) := by
  unfold readComparison
  split
  · next left =>
    refine ⟨['=', '='], _, rfl, .plain hcompared (by simp [Ne.symm hc]) fun tail _ p => ?_⟩
    rw [hread]
    rfl
  · next left hleft =>
    refine ⟨['='], _, rfl, .plain hcompared (by simp [Ne.symm hc]) fun tail htail p => ?_⟩
    have hhead : left.head? ≠ some '=' := fun h => by
      obtain ⟨rest, rfl⟩ := List.head?_eq_some_iff.1 h
      exact hleft rest rfl
    rw [hread]
    exact congrArg Except.ok (Await.readComparison_loose (htail.head_ne (by decide) hhead) p)
  · next left _ hleft =>
    refine ⟨[], _, rfl, .plain halone (by simp [Ne.symm hc]) fun tail htail p => ?_⟩
    have hhead : rest.head? ≠ some '=' := fun h => by
      obtain ⟨rest, rfl⟩ := List.head?_eq_some_iff.1 h
      exact hleft rest rfl
    rw [hread]
    exact congrArg Except.ok (Await.readComparison_alone (htail.head_ne (by decide) hhead) p)

theorem lexed_order {strict weak : Token} (hc : c ≠ '\n') (hstrict : strict ≠ .eof ∧ strict ≠ .newline)
    (hweak : weak ≠ .eof ∧ weak ≠ .newline)
    (hread : ∀ rest p, read c rest p = .ok (readOrder strict weak rest p)) (rest : List Char) (p : Position) :
    Lexed c rest (readOrder strict weak rest p) := by
  unfold readOrder
  split
  · next left =>
    refine ⟨['='], _, rfl, .plain hweak (by simp [Ne.symm hc]) fun tail _ p => ?_⟩
    rw [hread]
    rfl
  · next left hleft =>
    refine ⟨[], _, rfl, .plain hstrict (by simp [Ne.symm hc]) fun tail htail p => ?_⟩
    have hhead : rest.head? ≠ some '=' := fun h => by
      obtain ⟨rest, rfl⟩ := List.head?_eq_some_iff.1 h
      exact hleft rest rfl
    rw [hread]
    exact congrArg Except.ok (Await.readOrder_strict (htail.head_ne (by decide) hhead) p)

theorem lexed_pair {both : Token} (hc : c ≠ '\n') (hboth : both ≠ .eof ∧ both ≠ .newline)
    (hread : ∀ rest p, read c rest p = readPair c both rest p) (h : readPair c both rest p = .ok x) : Lexed c rest x := by
  unfold readPair at h
  split at h
  · next d left =>
    split at h
    · next hd =>
      cases h
      subst hd
      refine ⟨[d], _, rfl, .plain hboth (by simp [Ne.symm hc]) fun tail _ p => ?_⟩
      rw [hread, readPair.eq_def]
      exact if_pos rfl
    · cases h
  · cases h

/-! ## Numbers -/

theorem numberText_ends {tail : List Char} (h : Ends tail) (point exponent : Bool) (cs : List Char) :
    numberText point exponent (cs ++ tail) =
      ((numberText point exponent cs).1, (numberText point exponent cs).2 ++ tail) := by
  have hstop (point exponent : Bool) : numberText point exponent tail = ([], tail) := by
    rcases h with rfl | ⟨rest, rfl⟩
    · rfl
    · exact Await.numberText_stop (show Text.isNamePart '\n' = false by decide) rfl
  fun_induction numberText point exponent cs with
  | case1 => exact hstop _ _
  | case2 point exponent c rest hc text left hx ih =>
    rw [List.cons_append, numberText.eq_def]
    simp only [if_pos hc, ih, hx]
  | case3 point exponent rest hc ih =>
    rw [List.cons_append, numberText.eq_def]
    simp only [if_neg hc, if_true, ih]
  | case4 point exponent c rest hc hunder hdot text left hx ih =>
    rw [← h.head_any (by decide) rest] at hdot
    rw [List.cons_append, numberText.eq_def]
    simp only [if_neg hc, if_neg hunder, if_pos hdot, ih, hx]
  | case5 point exponent c hc hunder he s rest hs text left hx hdot ih =>
    rw [← h.head_any (by decide) (s :: rest)] at hdot
    rw [List.cons_append, numberText.eq_def]
    simp only [if_neg hc, if_neg hunder, if_neg hdot, if_pos he]
    rw [List.cons_append]
    simp only [if_pos hs, ih, hx]
  | case6 point exponent c hc hunder he s rest hs text left hx hdot ih =>
    rw [← h.head_any (by decide) (s :: rest)] at hdot
    rw [List.cons_append, numberText.eq_def]
    simp only [if_neg hc, if_neg hunder, if_neg hdot, if_pos he]
    rw [List.cons_append]
    simp only [if_neg hs, ← List.cons_append, ih, hx]
  | case7 point exponent c hc hunder he hdot =>
    rw [← h.head_any (by decide) []] at hdot
    rw [List.cons_append, numberText.eq_def]
    simp only [if_neg hc, if_neg hunder, if_neg hdot, if_pos he]
    rcases h with rfl | ⟨rest, rfl⟩
    · rfl
    · simp [hstop]
  | case8 point exponent c rest hc hunder hdot he =>
    rw [← h.head_any (by decide) rest] at hdot
    rw [List.cons_append, numberText.eq_def]
    simp only [if_neg hc, if_neg hunder, if_neg hdot, if_neg he]

theorem exponentMark {c : Char} (h : c = 'e' ∨ c = 'E') : Text.isNamePart c = true ∧ c ≠ '.' := by
  rcases h with rfl | rfl <;> decide

theorem number_used {point exponent : Bool} {cs text left : List Char}
    (h : numberText point exponent cs = (text, left)) : ∃ used, cs = used ++ left ∧
      (∀ c ∈ used, Text.isNamePart c = true ∨ c ∈ ['.', '+', '-']) ∧ used.getLast? ≠ some '.' ∧
      (used = [] → left.head?.any Char.isDigit = false) := by
  have hcons : ∀ {c : Char} {used left : List Char}, (Text.isNamePart c = true ∨ c ∈ ['.', '+', '-']) →
      (c = '.' → used ≠ []) → ((∀ c ∈ used, Text.isNamePart c = true ∨ c ∈ ['.', '+', '-']) ∧ used.getLast? ≠ some '.' ∧
        (used = [] → left.head?.any Char.isDigit = false)) →
      (∀ d ∈ c :: used, Text.isNamePart d = true ∨ d ∈ ['.', '+', '-']) ∧ (c :: used).getLast? ≠ some '.' ∧
        (c :: used = [] → left.head?.any Char.isDigit = false) := by
    intro c used left hc hpoint ⟨hused, hlast, _⟩
    refine ⟨List.forall_mem_cons.2 ⟨hc, hused⟩, ?_, by simp⟩
    cases used with
    | nil =>
      intro heq
      exact hpoint (Option.some.inj heq) rfl
    | cons d used => simpa using hlast
  fun_induction numberText point exponent cs generalizing text left with
  | case1 =>
    cases h
    exact ⟨[], rfl, List.forall_mem_nil _, by simp, fun _ => rfl⟩
  | case2 _ _ c rest hdigit _ _ hx ih =>
    cases h
    obtain ⟨used, rfl, hused⟩ := ih hx
    refine ⟨c :: used, rfl, hcons (.inl (Text.isNamePart_of_isDigit hdigit)) ?_ hused⟩
    rintro rfl
    cases hdigit
  | case3 _ _ rest _ ih =>
    obtain ⟨used, rfl, hused⟩ := ih h
    exact ⟨'_' :: used, rfl, hcons (.inl (by decide)) (by simp) hused⟩
  | case4 _ _ c rest _ _ hdot _ _ hx ih =>
    cases h
    obtain ⟨used, rfl, hused⟩ := ih hx
    refine ⟨c :: used, rfl, hcons (.inr (by simp [hdot.1])) ?_ hused⟩
    rintro - rfl
    have hhead := hused.2.2 rfl
    rw [List.nil_append] at hdot
    rw [hhead] at hdot
    exact absurd hdot.2.2.2 (by simp)
  | case5 _ _ c _ _ he s rest hs _ _ hx _ ih =>
    cases h
    obtain ⟨used, rfl, hused⟩ := ih hx
    have hsign : s ∈ ['.', '+', '-'] ∧ s ≠ '.' := by
      rcases hs with rfl | rfl <;> decide
    refine ⟨c :: s :: used, rfl, ?_⟩
    exact hcons (.inl (exponentMark he.1).1) (by simp) (hcons (.inr hsign.1) (fun h => absurd h hsign.2) hused)
  | case6 _ _ c _ _ he s rest hs _ _ hx _ ih =>
    cases h
    obtain ⟨used, heq, hused⟩ := ih hx
    exact ⟨c :: used, by rw [heq]; rfl, hcons (.inl (exponentMark he.1).1) (fun h => absurd h (exponentMark he.1).2) hused⟩
  | case7 _ _ c _ _ he _ =>
    cases h
    refine ⟨[c], rfl, hcons (.inl (exponentMark he.1).1) (fun h => absurd h (exponentMark he.1).2) ?_⟩
    exact ⟨List.forall_mem_nil _, by simp, fun _ => rfl⟩
  | case8 _ _ c rest hdigit =>
    cases h
    exact ⟨[], rfl, List.forall_mem_nil _, by simp, fun _ => by simpa using hdigit⟩

theorem lexed_number (hc : c ≠ '\n')
    (hread : ∀ tail, Ends tail → ∀ p, Token.read c (rest ++ tail) p = readNumber c (rest ++ tail) p)
    (h : readNumber c rest p = .ok x) : Lexed c rest x := by
  have hends := fun tail (htail : Ends tail) => numberText_ends htail (c == '.') false rest
  rcases hx : numberText (c == '.') false rest with ⟨digits, left⟩
  obtain ⟨used, rfl, hused, -, -⟩ := number_used hx
  have hline : '\n' ∉ c :: used := by
    intro hmem
    rcases List.mem_cons.1 hmem with heq | hmem
    · exact hc heq.symm
    · exact absurd (hused _ hmem) (by decide)
  simp only [readNumber, hx] at h
  split at h
  · next n hn =>
    cases h
    refine ⟨used, _, rfl, .plain (by simp) hline fun tail htail p => ?_⟩
    have htext := hends tail htail
    rw [← List.append_assoc, hread tail htail]
    simp only [readNumber, htext, hx, hn, List.length_append]
    rw [show 1 + (used.length + left.length + tail.length - (left.length + tail.length)) = used.length + 1 by omega]
  · cases h

/-! ## Words and literals -/

theorem ofWord_inner (word : String) : ofWord word ≠ .eof ∧ ofWord word ≠ .newline := by
  unfold ofWord
  repeat' split
  all_goals simp

theorem lexed_word (hc : Text.isNameStart c = true) (rest : List Char) (p : Position) : Lexed c rest
    ⟨ofWord (String.ofList (c :: rest.takeWhile Text.isNamePart)), rest.dropWhile Text.isNamePart, p⟩ := by
  have hpart : ∀ d ∈ rest.takeWhile Text.isNamePart, Text.isNamePart d = true := fun d hd => List.mem_takeWhile_imp hd
  have hline : '\n' ∉ c :: rest.takeWhile Text.isNamePart := by
    intro hmem
    rcases List.mem_cons.1 hmem with rfl | hmem
    · exact absurd hc (by decide)
    · exact absurd (hpart _ hmem) (by decide)
  refine ⟨_, _, List.takeWhile_append_dropWhile.symm, .plain (ofWord_inner _) hline fun tail htail p => ?_⟩
  have hnext : (rest.dropWhile Text.isNamePart ++ tail).head?.any Text.isNamePart = false := by
    rw [htail.head_any (by decide), Await.head?_any_dropWhile]
  rw [Nat.add_comm]
  exact Await.read_word hc hpart hnext p

theorem lexed_quoted {quote : Char} (hquote : quote = '"' ∨ quote = '\'') (h : readString quote rest p = .ok x) :
    Lexed quote rest x := by
  obtain ⟨y, hy, rfl⟩ := exists_of_map h
  obtain ⟨body, hbody, rfl⟩ := stringText_eq_ok hy
  have hread := fun next p => read_quoted hquote hbody next p
  have hvalue : y.text = body.map Glyph.value := by
    rw [stringText_spell hquote hbody] at hy
    exact congrArg Stretch.text (Except.ok.inj hy).symm
  refine ⟨spell body ++ [quote], quote :: (body.flatMap Glyph.counted ++ [quote]), by simp, by simp, ?_, ?_⟩
  · rw [hvalue]
    exact .quoted hquote hbody
  · intro tail _ p
    have hline : quote ≠ '\n' := by rcases hquote with rfl | rfl <;> decide
    rw [List.append_assoc, List.singleton_append, hread, hvalue]
    simp [Position.past_of_ne hline]

theorem lexed_template (h : readTemplate rest p = .ok x) : Lexed '\x60' rest x := by
  obtain ⟨y, hy, rfl⟩ := exists_of_map h
  obtain ⟨body, hbody⟩ := exists_segmented hy
  have hraw : y.text = body.flatMap Segment.raw := by
    rw [hbody.templateText] at hy
    exact congrArg Stretch.text (Except.ok.inj hy).symm
  refine ⟨body.flatMap Segment.chars ++ ['\x60'], '\x60' :: (body.flatMap Segment.counted ++ ['\x60']), ?_, by simp, ?_, ?_⟩
  · rw [List.append_assoc]
    exact hbody.eq
  · rw [hraw]
    exact .template (hbody.replace [])
  · intro tail _ p
    rw [List.append_assoc, List.singleton_append, (hbody.replace _).read, hraw]
    simp [Position.past]

/-! ## The token at a place -/

theorem lexed_single (hline : c ≠ '\n') (ht : t ≠ .eof ∧ t ≠ .newline)
    (hread : ∀ tail, Ends tail → ∀ p, Token.read c (rest ++ tail) p = .ok ⟨t, rest ++ tail, p.right 1⟩) (p : Position) :
    Lexed c rest ⟨t, rest, p⟩ :=
  ⟨[], _, rfl, .plain ht (by simpa using Ne.symm hline) hread⟩

theorem single?_inner (h : single? c = some t) : t ≠ .eof ∧ t ≠ .newline := by
  unfold single? at h
  split at h <;> cases h <;> simp

theorem read_single (h : single? c = some t) (rest : List Char) (p : Position) :
    Token.read c rest p = .ok ⟨t, rest, p.right 1⟩ := by
  unfold single? at h
  split at h <;> cases h <;> rfl

theorem lexed_of_read (hc : c ≠ '\n') (h : Token.read c rest p = .ok x) : Lexed c rest x := by
  unfold Token.read at h
  split at h
  · cases h
    exact lexed_comparison (by decide) (by simp) (by simp) (fun _ _ => rfl) rest p
  · cases h
    exact lexed_comparison (by decide) (by simp) (by simp) (fun _ _ => rfl) rest p
  · cases h
    exact lexed_order (by decide) (by simp) (by simp) (fun _ _ => rfl) rest p
  · cases h
    exact lexed_order (by decide) (by simp) (by simp) (fun _ _ => rfl) rest p
  · exact lexed_pair (by decide) (by simp) (fun _ _ => rfl) h
  · exact lexed_pair (by decide) (by simp) (fun _ _ => rfl) h
  · have hread : ∀ tail, Ends tail → ∀ p, Token.read '.' (rest ++ tail) p =
        if rest.head?.any Char.isDigit then readNumber '.' (rest ++ tail) p else .ok ⟨.dot, rest ++ tail, p.right 1⟩ := by
      intro tail htail p
      rw [← htail.head_any (f := Char.isDigit) (by decide)]
      rfl
    split at h
    · next hdigit =>
      simp only [if_pos hdigit] at hread
      exact lexed_number (by decide) hread h
    · next hdigit =>
      simp only [if_neg hdigit] at hread
      cases h
      exact lexed_single (by decide) (by simp) hread _
  · exact lexed_quoted (.inl rfl) h
  · exact lexed_quoted (.inr rfl) h
  · exact lexed_template h
  · split at h
    · next t ht =>
      cases h
      exact lexed_single hc (single?_inner ht) (fun tail _ p => read_single ht _ p) _
    · split at h
      · next hdigit => exact lexed_number hc (fun tail _ p => Await.read_digit hdigit _ p) h
      · split at h
        · next hname =>
          cases h
          exact lexed_word hname rest _
        · cases h

end LiveSheet.Token
