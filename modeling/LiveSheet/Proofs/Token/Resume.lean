import LiveSheet.Proofs.Token.Layout

/-! Text behind a text. What is put behind a text that can be read is read as if it stood alone, unless it goes on with
the last token of the text or the text ends in a comment, which then goes on to the end of the line. -/

namespace LiveSheet.Token

def lex (nesting : Nat) (last : Option Token) (cs : List Char) : Option (List Token) :=
  (scan nesting last cs ⟨1, 1⟩).toOption.map fun ts => ts.map (·.token)

variable {nesting : Nat} {last last' : Option Token} {cs cs' next rest left : List Char} {chunks : List Chunk}
  {c : Char} {p q : Position} {x : Lexeme} {us : List Token}

theorem lex_eq_some : lex nesting last cs = some us ↔
    ∃ chunks, Laid nesting last cs chunks ∧ us = tokens chunks ++ [.eof] := by
  have hlaid : ∀ {chunks}, Laid nesting last cs chunks → lex nesting last cs = some (tokens chunks ++ [.eof]) := by
    intro chunks h
    rw [lex, h.scan_eq]
    simp [Except.toOption, map_token_placed]
  constructor
  · intro h
    cases hscan : scan nesting last cs ⟨1, 1⟩ with
    | error e =>
      rw [lex, hscan] at h
      cases h
    | ok ts =>
      obtain ⟨chunks, hchunks⟩ := exists_laid hscan
      exact ⟨chunks, hchunks, Option.some.inj (h.symm.trans (hlaid hchunks))⟩
  · rintro ⟨chunks, hchunks, rfl⟩
    exact hlaid hchunks

theorem lex_eq_scan (p : Position) :
    lex nesting last cs = (scan nesting last cs p).toOption.map fun ts => ts.map (·.token) := by
  cases hscan : scan nesting last cs p with
  | ok ts =>
    obtain ⟨chunks, hchunks⟩ := exists_laid hscan
    rw [lex_eq_some.2 ⟨chunks, hchunks, rfl⟩, ← hscan, hchunks.scan_eq]
    simp [Except.toOption, map_token_placed]
  | error e =>
    cases hlex : lex nesting last cs with
    | none => rfl
    | some us =>
      obtain ⟨chunks, hchunks, _⟩ := lex_eq_some.1 hlex
      rw [hchunks.scan_eq] at hscan
      cases hscan

theorem lex_congr (h : skip false cs p = skip false cs' q) : lex nesting last cs = lex nesting last cs' := by
  rw [lex_eq_scan p, lex_eq_scan q, Await.scan_congr h]

theorem lex_nil : lex nesting last [] = some [.eof] := lex_eq_some.2 ⟨_, .done ⟨List.not_mem_nil, fun tail htail p => by
  rcases htail with rfl | ⟨rest, rfl⟩ <;> rfl⟩, rfl⟩

theorem lex_lineEnd (h : skip false cs p = ('\n' :: rest, q)) : lex nesting last cs =
    (lex nesting (if separates nesting last then some newline else last) rest).map
      ((Chunk.lineEnd (separates nesting last)).token?.toList ++ ·) := by
  rw [lex_eq_scan p, lex_eq_scan q.nextLine, scan_lineEnd h]
  cases scan nesting (if separates nesting last then some newline else last) rest q.nextLine with
  | error e => rfl
  | ok ts => cases separates nesting last <;> rfl

theorem lex_token (h : skip false cs p = (c :: rest, q)) (hc : c ≠ '\n') (hx : read c rest q = .ok x) :
    lex nesting last cs = (lex (nestingAfter nesting x.token) (some x.token) x.rest).map (x.token :: ·) := by
  rw [lex_eq_scan p, lex_eq_scan x.position, Await.scan_of_skip_cons h hc hx]
  cases scan (nestingAfter nesting x.token) (some x.token) x.rest x.position <;> rfl

theorem lex_fresh (h : Await.fresh last = Await.fresh last') : lex nesting last cs = lex nesting last' cs := by
  have hle : ∀ {last last' us}, Await.fresh last = Await.fresh last' → lex nesting last cs = some us →
      lex nesting last' cs = some us := by
    intro last last' us hfresh hlex
    obtain ⟨chunks, hchunks, rfl⟩ := lex_eq_some.1 hlex
    exact lex_eq_some.2 ⟨chunks, hchunks.of_fresh hfresh, rfl⟩
  exact Option.ext fun us => ⟨hle h, hle h.symm⟩

theorem lex_operand (h : Await.fresh last = false) : lex nesting last cs = lex nesting (some .nullWord) cs :=
  lex_fresh h

theorem lex_atom {a : Await.Atom} (h : a.Fits next) : lex nesting last (a.chars ++ next) =
    (lex (nestingAfter nesting a.token) (some a.token) next).map (a.token :: ·) := by
  obtain ⟨c, rest, hchars, hline, hblank, hcomment, hread⟩ := h.read
  obtain ⟨q, hq⟩ := hread ⟨1, 1⟩
  have hcomment' : ¬(c = '/' ∧ (rest ++ next).head? = some '/') := fun h => hcomment h.1 h.2
  have hskip : skip false (c :: (rest ++ next)) ⟨1, 1⟩ = (c :: (rest ++ next), ⟨1, 1⟩) := by
    rw [skip_cons hline, if_neg Bool.false_ne_true, hblank, if_neg Bool.false_ne_true, if_neg hcomment']
  rw [hchars, List.cons_append, lex_token hskip hline hq]

theorem lex_single (h : single? c = some t) (hc : c ≠ '\n' ∧ Text.isBlank c = false ∧ c ≠ '/') (next : List Char) :
    lex nesting last (c :: next) = (lex (nestingAfter nesting t) (some t) next).map (t :: ·) := by
  have hskip : skip false (c :: next) ⟨1, 1⟩ = (c :: next, ⟨1, 1⟩) := by
    rw [skip_cons hc.1, if_neg Bool.false_ne_true, hc.2.1, if_neg Bool.false_ne_true,
      if_neg fun h => hc.2.2 h.1]
  exact lex_token hskip hc.1 (read_single h next ⟨1, 1⟩)

/-! ## One token with text behind it -/

/-- The characters end with no part of a name and no point, so that a number or a word at the end does not go on. -/
def Closed (cs : List Char) : Prop := ∀ c ∈ cs.getLast?, Text.isNamePart c = false ∧ c ≠ '.'

theorem Closed.of_append (front : List Char) (h : Closed (front ++ cs)) : Closed cs := by
  intro c hc
  exact h c (by rw [List.getLast?_append, Option.mem_def.1 hc]; rfl)

theorem Closed.ne_nil (h : Closed (c :: cs)) (hc : Text.isNamePart c = true ∨ c = '.') : cs ≠ [] := by
  rintro rfl
  have hlast := h c rfl
  rcases hc with hc | hc
  · rw [hlast.1] at hc
    cases hc
  · exact hlast.2 hc

/-- What is left of a text behind a token keeps the token from going on with the text behind. -/
structure Holds (used left next : List Char) : Prop where
  empty : left = [] → Closed used ∧ next.head? ≠ some '='
  point : left = ['.'] → next.head?.any Char.isDigit = false

theorem Holds.tail (h : Holds (c :: cs) left next) : Holds cs left next :=
  ⟨fun hleft => ⟨Closed.of_append [c] (h.empty hleft).1, (h.empty hleft).2⟩, h.point⟩

theorem Holds.head_ne (h : Holds cs left next) (hleft : left.head? ≠ some '=') : (left ++ next).head? ≠ some '=' := by
  cases left with
  | nil => exact (h.empty rfl).2
  | cons d left => exact hleft

/-- With text behind it the same token is read. -/
def Reread (c : Char) (rest next : List Char) (x : Lexeme) : Prop :=
  ∀ p, ∃ q, read c (rest ++ next) p = .ok ⟨x.token, x.rest ++ next, q⟩

theorem reread_comparison {alone compared : Token}
    (hread : ∀ rest p, read c rest p = .ok (readComparison alone compared rest p))
    (h : Holds (c :: rest) (readComparison alone compared rest p).rest next) :
    Reread c rest next (readComparison alone compared rest p) := by
  intro p'
  have hhead : ∀ {left : List Char}, (∀ left', left ≠ '=' :: left') → left.head? ≠ some '=' := by
    intro left hleft heq
    obtain ⟨left', rfl⟩ := List.head?_eq_some_iff.1 heq
    exact hleft left' rfl
  rw [hread]
  unfold readComparison at h ⊢
  split at h
  · exact ⟨_, rfl⟩
  · next left hleft =>
    exact ⟨_, congrArg Except.ok (Await.readComparison_loose (h.head_ne (hhead hleft)) p')⟩
  · next _ hleft =>
    exact ⟨_, congrArg Except.ok (Await.readComparison_alone (h.head_ne (hhead hleft)) p')⟩

theorem reread_order {strict weak : Token} (hread : ∀ rest p, read c rest p = .ok (readOrder strict weak rest p))
    (h : Holds (c :: rest) (readOrder strict weak rest p).rest next) :
    Reread c rest next (readOrder strict weak rest p) := by
  intro p'
  rw [hread]
  unfold readOrder at h ⊢
  split at h
  · exact ⟨_, rfl⟩
  · next _ hleft =>
    have hhead : rest.head? ≠ some '=' := fun heq => by
      obtain ⟨left, rfl⟩ := List.head?_eq_some_iff.1 heq
      exact hleft left rfl
    exact ⟨_, congrArg Except.ok (Await.readOrder_strict (h.head_ne hhead) p')⟩

theorem reread_pair {both : Token} (hread : ∀ rest p, read c rest p = readPair c both rest p)
    (h : readPair c both rest p = .ok x) : Reread c rest next x := by
  intro p'
  rw [hread]
  unfold readPair at h
  split at h
  · next d left =>
    split at h
    · next hd =>
      cases h
      subst hd
      exact ⟨_, if_pos rfl⟩
    · cases h
  · cases h

theorem reread_quoted {quote : Char} (hquote : quote = '"' ∨ quote = '\'') (h : readString quote rest p = .ok x) :
    Reread quote rest next x := by
  obtain ⟨y, hy, rfl⟩ := exists_of_map h
  obtain ⟨body, hbody, rfl⟩ := stringText_eq_ok hy
  have hvalue : y.text = body.map Await.Glyph.value := by
    rw [stringText_spell hquote hbody] at hy
    exact congrArg Stretch.text (Except.ok.inj hy).symm
  intro p'
  rw [List.append_assoc, List.cons_append, read_quoted hquote hbody, hvalue]
  exact ⟨_, rfl⟩

theorem reread_template (h : readTemplate rest p = .ok x) : Reread '\x60' rest next x := by
  obtain ⟨y, hy, rfl⟩ := exists_of_map h
  obtain ⟨body, hbody⟩ := exists_segmented hy
  have hraw : y.text = body.flatMap Segment.raw := by
    rw [hbody.templateText] at hy
    exact congrArg Stretch.text (Except.ok.inj hy).symm
  intro p'
  have hread := (hbody.replace (y.rest ++ next)).read p'
  rw [← List.cons_append, ← List.append_assoc, ← hbody.eq, ← hraw] at hread
  exact ⟨_, hread⟩

/-! ### Numbers -/

theorem exponent?_sign {s : Char} (hs : s.isDigit = false) (he : ¬(s = 'e' ∨ s = 'E')) (cs : List Char) :
    Number.exponent? (cs ++ [s]) = none := by
  have hdigits : ∀ ds, ds = [] ∨ s ∈ ds → Number.exponent?.digits? ds = none := by
    rintro ds (rfl | hmem)
    · rfl
    · refine if_pos ?_
      have hall : ds.all Char.isDigit = false := by
        refine List.all_eq_false.2 ⟨s, hmem, ?_⟩
        rw [hs]
        exact Bool.false_ne_true
      rw [hall, Bool.not_false, Bool.or_true]
  cases cs with
  | nil => exact if_neg he
  | cons c cs =>
    have hrest : ∀ {d ds}, cs ++ [s] = d :: ds → ds = [] ∨ s ∈ ds := by
      intro d ds hds
      cases cs <;> cases hds <;> simp
    rw [List.cons_append, Number.exponent?.eq_def]
    simp only
    split
    · split
      · next hds =>
        rw [hdigits _ (hrest hds)]
        rfl
      · next hds =>
        rw [hdigits _ (hrest hds)]
        rfl
      · rw [hdigits _ (.inr (by simp))]
        rfl
    · rfl

theorem dropWhile_concat {f : Char → Bool} {s : Char} (hs : f s = false) (cs : List Char) :
    ∃ rest, (cs ++ [s]).dropWhile f = rest ++ [s] := by
  rw [List.dropWhile_append]
  split
  · exact ⟨[], by simp [hs]⟩
  · exact ⟨_, rfl⟩

theorem unsigned?_sign {s : Char} (hs : s = '+' ∨ s = '-') (cs : List Char) : Number.unsigned? (cs ++ [s]) = none := by
  have hdigit : s.isDigit = false := by rcases hs with rfl | rfl <;> rfl
  have he : ¬(s = 'e' ∨ s = 'E') := by rcases hs with rfl | rfl <;> decide
  have hword : ∀ word : String, word.toList.getLast? ≠ some s →
      String.ofList ((cs ++ [s]).map Char.toLower) ≠ word := by
    rintro word hlast rfl
    have hlower : s.toLower = s := by rcases hs with rfl | rfl <;> rfl
    rw [String.toList_ofList, List.map_append, List.map_singleton, hlower, List.getLast?_concat] at hlast
    exact hlast rfl
  have hdecimal : Number.decimal? (cs ++ [s]) = none := by
    obtain ⟨rest, hrest⟩ := dropWhile_concat hdigit cs
    have hpoint : ∀ {ds}, rest ++ [s] = '.' :: ds → ∃ ds', ds = ds' ++ [s] := by
      intro ds hds
      cases rest with
      | nil =>
        cases hds
        exact absurd hs (by decide)
      | cons d rest => exact ⟨rest, (List.cons.inj hds).2.symm⟩
    simp only [Number.decimal?, hrest]
    split
    · next ds hds =>
      obtain ⟨ds, rfl⟩ := hpoint hds
      obtain ⟨left, hleft⟩ := dropWhile_concat hdigit ds
      rw [hleft, exponent?_sign hdigit he, Option.map_none, ite_self]
    · rw [exponent?_sign hdigit he, Option.map_none, ite_self]
  rw [Number.unsigned?, if_neg, if_neg (hword _ (by rcases hs with rfl | rfl <;> decide)), hdecimal]
  rintro (h | h)
  · exact hword _ (by rcases hs with rfl | rfl <;> decide) h
  · exact hword _ (by rcases hs with rfl | rfl <;> decide) h

theorem read?_sign {s : Char} (hs : s = '+' ∨ s = '-') (c : Char) (cs : List Char) :
    Number.read? (c :: (cs ++ [s])) = none := by
  unfold Number.read?
  split
  · next heq =>
    rw [← (List.cons.inj heq).2, unsigned?_sign hs]
    rfl
  · next heq => rw [← (List.cons.inj heq).2, unsigned?_sign hs]
  · exact unsigned?_sign hs (c :: cs)

/-- The characters end with the sign of an exponent that has no digits. -/
def Unfinished (cs : List Char) : Prop := ∃ front s, cs = front ++ [s] ∧ (s = '+' ∨ s = '-')

theorem Unfinished.cons (c : Char) (h : Unfinished cs) : Unfinished (c :: cs) := by
  obtain ⟨front, s, rfl, hs⟩ := h
  exact ⟨c :: front, s, rfl, hs⟩

theorem Holds.ne_nil_of_numberText {point exponent : Bool} {text : List Char} (h : Holds (c :: rest) left next)
    (hc : Text.isNamePart c = true) (hx : numberText point exponent rest = (text, left)) : rest ≠ [] := by
  rintro rfl
  cases hx
  exact (h.empty rfl).1.ne_nil (.inl hc) rfl

theorem numberText_held {point exponent : Bool} {cs text left : List Char}
    (h : numberText point exponent cs = (text, left)) (hcs : cs ≠ []) (hholds : Holds cs left next) :
    numberText point exponent (cs ++ next) = (text, left ++ next) ∨ Unfinished text := by
  have hmark : ∀ {c : Char} {p : Prop}, c = 'e' ∨ c = 'E' → ¬(c = '.' ∧ p) := fun hc h => (exponentMark hc).2 h.1
  fun_induction numberText point exponent cs generalizing text left with
  | case1 => exact absurd rfl hcs
  | case2 point exponent c rest hc digits left hx ih =>
    cases h
    have hne := hholds.ne_nil_of_numberText (Text.isNamePart_of_isDigit hc) hx
    refine (ih hx hne hholds.tail).imp (fun hread => ?_) (.cons _)
    rw [List.cons_append, numberText.eq_def]
    simp only [if_pos hc, hread]
  | case3 point exponent rest hc ih =>
    have hne := hholds.ne_nil_of_numberText (by decide) h
    refine (ih h hne hholds.tail).imp_left fun hread => ?_
    rw [List.cons_append, numberText.eq_def]
    simp only [if_neg hc, if_true, hread]
  | case4 point exponent c rest hc hunder hdot digits left hx ih =>
    cases h
    have hne : rest ≠ [] := by
      rintro rfl
      exact absurd hdot.2.2.2 Bool.false_ne_true
    refine (ih hx hne hholds.tail).imp (fun hread => ?_) (.cons _)
    rw [← @List.head?_append_of_ne_nil _ rest next hne] at hdot
    rw [List.cons_append, numberText.eq_def]
    simp only [if_neg hc, if_neg hunder, if_pos hdot, hread]
  | case5 point exponent c hc hunder he s rest hs digits left hx hdot ih =>
    cases h
    cases rest with
    | nil =>
      cases hx
      exact .inr ⟨['e'], s, rfl, hs⟩
    | cons d rest =>
      refine (ih hx (List.cons_ne_nil d rest) hholds.tail.tail).imp (fun hread => ?_) fun h => (h.cons s).cons _
      rw [List.cons_append, numberText.eq_def]
      simp only [if_neg hc, if_neg hunder, if_neg (hmark he.1), if_pos he]
      simp only [List.cons_append, if_pos hs]
      rw [← List.cons_append, hread]
  | case6 point exponent c hc hunder he s rest hs digits left hx hdot ih =>
    cases h
    refine (ih hx (List.cons_ne_nil s rest) hholds.tail).imp (fun hread => ?_) (.cons _)
    rw [List.cons_append, numberText.eq_def]
    simp only [if_neg hc, if_neg hunder, if_neg (hmark he.1), if_pos he]
    simp only [List.cons_append, if_neg hs]
    rw [← List.cons_append, hread]
  | case7 point exponent c hc hunder he hdot =>
    cases h
    exact absurd rfl ((hholds.empty rfl).1.ne_nil (.inl (exponentMark he.1).1))
  | case8 point exponent c rest hc hunder hdot he =>
    cases h
    have hdot' : ¬(c = '.' ∧ !point ∧ !exponent ∧ (rest ++ next).head?.any Char.isDigit) := by
      rintro ⟨rfl, hpoint, hexponent, hdigit⟩
      cases rest with
      | nil =>
        rw [List.nil_append, hholds.point rfl] at hdigit
        cases hdigit
      | cons d rest => exact hdot ⟨rfl, hpoint, hexponent, hdigit⟩
    refine .inl ?_
    rw [List.cons_append, numberText.eq_def]
    simp only [if_neg hc, if_neg hunder, if_neg hdot', if_neg he]

theorem reread_number (hc : Text.isNamePart c = true ∨ c = '.')
    (hread : ∀ p, read c (rest ++ next) p = readNumber c (rest ++ next) p) (h : readNumber c rest p = .ok x)
    (hholds : Holds (c :: rest) x.rest next) : Reread c rest next x := by
  rcases hx : numberText (c == '.') false rest with ⟨digits, left⟩
  simp only [readNumber, hx] at h
  split at h
  · next n hn =>
    cases h
    have hne : rest ≠ [] := by
      rintro rfl
      cases hx
      exact (hholds.empty rfl).1.ne_nil hc rfl
    rcases numberText_held hx hne hholds.tail with htext | ⟨front, s, rfl, hs⟩
    · intro p'
      rw [hread]
      simp only [readNumber, htext, hn]
      exact ⟨_, rfl⟩
    · rw [read?_sign hs] at hn
      cases hn
  · cases h

/-! ### Any token -/

theorem reread_word (hc : Text.isNameStart c = true)
    (hholds : Holds (c :: rest) (rest.dropWhile Text.isNamePart) next) : Reread c rest next
      ⟨ofWord (String.ofList (c :: rest.takeWhile Text.isNamePart)), rest.dropWhile Text.isNamePart, p⟩ := by
  intro p'
  have hpart : ∀ d ∈ rest.takeWhile Text.isNamePart, Text.isNamePart d = true := fun d hd => List.mem_takeWhile_imp hd
  have hleft : (rest.dropWhile Text.isNamePart ++ next).head?.any Text.isNamePart = false := by
    have hstop := Await.head?_any_dropWhile Text.isNamePart rest
    cases hdrop : rest.dropWhile Text.isNamePart with
    | nil =>
      -- the word would reach up to the end
      have hclosed := (hholds.empty hdrop).1
      have hall : ∀ d ∈ c :: rest, Text.isNamePart d = true := by
        rw [← List.takeWhile_append_dropWhile (p := Text.isNamePart) (l := rest), hdrop, List.append_nil]
        exact List.forall_mem_cons.2 ⟨Text.isNamePart_of_isNameStart hc, hpart⟩
      have hlast := (hclosed _ (List.getLast?_eq_some_getLast (List.cons_ne_nil c rest))).1
      rw [hall _ (List.getLast_mem _)] at hlast
      cases hlast
    | cons d left =>
      rw [hdrop] at hstop
      exact hstop
  have hread := Await.read_word hc hpart hleft p'
  rw [← List.append_assoc, List.takeWhile_append_dropWhile] at hread
  exact ⟨_, hread⟩

theorem reread (h : read c rest p = .ok x) (hholds : Holds (c :: rest) x.rest next) : Reread c rest next x := by
  unfold Token.read at h
  split at h
  · cases h
    exact reread_comparison (fun _ _ => rfl) hholds
  · cases h
    exact reread_comparison (fun _ _ => rfl) hholds
  · cases h
    exact reread_order (fun _ _ => rfl) hholds
  · cases h
    exact reread_order (fun _ _ => rfl) hholds
  · exact reread_pair (fun _ _ => rfl) h
  · exact reread_pair (fun _ _ => rfl) h
  · have hread : ∀ p, read '.' (rest ++ next) p =
        if (rest ++ next).head?.any Char.isDigit then readNumber '.' (rest ++ next) p
        else .ok ⟨.dot, rest ++ next, p.right 1⟩ := fun _ => rfl
    have hne : rest ≠ [] := by
      rintro rfl
      cases h
      exact (hholds.empty rfl).1.ne_nil (.inr rfl) rfl
    have hhead : (rest ++ next).head? = rest.head? := by
      obtain ⟨d, rest, rfl⟩ := List.exists_cons_of_ne_nil hne
      rfl
    rw [hhead] at hread
    split at h
    · next hdigit =>
      simp only [if_pos hdigit] at hread
      exact reread_number (.inr rfl) hread h hholds
    · next hdigit =>
      simp only [if_neg hdigit] at hread
      cases h
      exact fun p' => ⟨_, hread p'⟩
  · exact reread_quoted (.inl rfl) h
  · exact reread_quoted (.inr rfl) h
  · exact reread_template h
  · split at h
    · next t ht =>
      cases h
      exact fun p' => ⟨_, read_single ht _ p'⟩
    · split at h
      · next hdigit =>
        exact reread_number (.inl (Text.isNamePart_of_isDigit hdigit)) (fun p => Await.read_digit hdigit _ p) h hholds
      · split at h
        · next hname =>
          cases h
          exact reread_word hname hholds
        · cases h

/-! ## What is left of the text behind -/

/-- The last gap holds a comment, which goes on to the end of its line. -/
def InComment (chunks : List Chunk) : Prop := ∃ gap, chunks.getLast? = some (.gap gap) ∧ ¬Await.Blank gap

/-- The text behind does not go on with a token at the end of the text in front, nor makes a comment of it. -/
structure Parted (cs next : List Char) : Prop where
  closed : Closed cs
  equal : next.head? ≠ some '='
  slash : next.head? ≠ some '/'

/-- What is left to read of the text behind: all of it, or the lines after the first where that belongs to a comment. -/
inductive Behind (cs : List Char) (chunks : List Chunk) (next : List Char) : List Char → Prop
  | comment : InComment chunks → Behind cs chunks next (next.dropWhile (· != '\n'))
  | code : ¬InComment chunks → Parted cs next → Behind cs chunks next next

theorem skip_append {inComment : Bool} (h : skip inComment cs p = (c :: rest, q))
    (hslash : c = '/' → rest = [] → next.head? ≠ some '/') :
    skip inComment (cs ++ next) p = (c :: (rest ++ next), q) := by
  fun_induction skip inComment cs p with
  | case1 => cases h
  | case2 =>
    cases h
    rfl
  | case3 d cs p hd ih =>
    rw [List.cons_append, skip_cons hd, if_pos rfl, ih h]
  | case4 inComment d cs p hd hcode hblank ih =>
    rw [List.cons_append, skip_cons hd, if_neg hcode, if_pos hblank, ih h]
  | case5 inComment d cs p hd hcode hblank hcomment ih =>
    have hcomment' : d = '/' ∧ (cs ++ next).head? = some '/' := by
      rw [List.head?_append, hcomment.2]
      exact ⟨hcomment.1, rfl⟩
    rw [List.cons_append, skip_cons hd, if_neg hcode, if_neg hblank, if_pos hcomment', ih h]
  | case6 inComment d cs p hd hcode hblank hcomment =>
    cases h
    have hcomment' : ¬(c = '/' ∧ (rest ++ next).head? = some '/') := by
      rintro ⟨hc, hhead⟩
      cases rest with
      | nil => exact hslash hc rfl hhead
      | cons d rest => exact hcomment ⟨hc, hhead⟩
    rw [List.cons_append, skip_cons hd, if_neg hcode, if_neg hblank, if_neg hcomment']

theorem skip_blank {gap : List Char} (hgap : Await.Blank gap) (hline : '\n' ∉ gap) (next : List Char) (p : Position) :
    skip false (gap ++ next) p = skip false next (p.right gap.length) := by
  induction gap generalizing p with
  | nil => rfl
  | cons c gap ih =>
    obtain ⟨hc, hline⟩ := not_or.1 fun h => hline (List.mem_cons.2 h)
    obtain ⟨hblank, hgap⟩ := List.forall_mem_cons.1 hgap
    rw [List.cons_append, skip_cons (Ne.symm hc), if_neg Bool.false_ne_true, if_pos hblank, ih hgap hline,
      Position.right_right, List.length_cons, Nat.add_comm]

theorem skip_comment {inComment : Bool} {gap : List Char} (h : skip inComment gap p = ([], q))
    (hgap : inComment = true ∨ ¬Await.Blank gap) (next : List Char) :
    skip inComment (gap ++ next) p = skip true next q := by
  fun_induction skip inComment gap p with
  | case1 =>
    cases h
    rw [hgap.resolve_right fun hgap => hgap (List.forall_mem_nil _)]
    rfl
  | case2 => cases h
  | case3 d cs p hd ih => rw [List.cons_append, skip_cons hd, if_pos rfl, ih h (.inl rfl)]
  | case4 inComment d cs p hd hcode hblank ih =>
    have hrest : ¬Await.Blank cs := fun hcs => (hgap.resolve_left hcode) (List.forall_mem_cons.2 ⟨hblank, hcs⟩)
    rw [List.cons_append, skip_cons hd, if_neg hcode, if_pos hblank, ih h (.inr hrest)]
  | case5 inComment d cs p hd hcode hblank hcomment ih =>
    have hcomment' : d = '/' ∧ (cs ++ next).head? = some '/' := by
      rw [List.head?_append, hcomment.2]
      exact ⟨hcomment.1, rfl⟩
    rw [List.cons_append, skip_cons hd, if_neg hcode, if_neg hblank, if_pos hcomment', ih h (.inl rfl)]
  | case6 => cases h

theorem skip_line (next : List Char) (p : Position) :
    ∃ q, skip true next p = skip false (next.dropWhile (· != '\n')) q := by
  induction next generalizing p with
  | nil => exact ⟨p, rfl⟩
  | cons c next ih =>
    by_cases hc : c = '\n'
    · subst hc
      exact ⟨p, rfl⟩
    · obtain ⟨q, hq⟩ := ih (p.right 1)
      exact ⟨q, by rw [skip_cons hc, if_pos rfl, hq, List.dropWhile_cons_of_pos (by simpa using hc)]⟩

theorem inComment_cons {chunk : Chunk} (h : chunks ≠ []) : InComment (chunk :: chunks) ↔ InComment chunks := by
  obtain ⟨first, chunks, rfl⟩ := List.exists_cons_of_ne_nil h
  simp only [InComment, List.getLast?_cons_cons]

theorem Laid.ne_nil (h : Laid nesting last cs chunks) : chunks ≠ [] := by
  cases h <;> exact List.cons_ne_nil _ _

theorem Laid.two_le (h : Laid nesting last cs chunks) (hcomment : InComment chunks) : 2 ≤ cs.length := by
  induction h with
  | @done _ _ gap hgap =>
    obtain ⟨_, hlast, hblank⟩ := hcomment
    cases hlast
    match gap, hgap, hblank with
    | [], _, hblank => exact absurd (List.forall_mem_nil _) hblank
    | [c], hgap, hblank =>
      have hskip := hgap.skip [] .nil ⟨1, 1⟩
      have hc : c ≠ '\n' := fun hc => hgap.inside (by simp [hc])
      have hblank : ¬Text.isBlank c = true := fun hc => hblank (List.forall_mem_singleton.2 hc)
      simp [skip_cons hc, hblank] at hskip
    | _ :: _ :: gap, _, _ => simp
  | lineEnd _ hrest ih =>
    have := ih ((inComment_cons hrest.ne_nil).1 ((inComment_cons (List.cons_ne_nil _ _)).1 hcomment))
    simp only [List.length_append, List.length_cons]
    omega
  | token _ _ _ hrest ih =>
    have := ih ((inComment_cons hrest.ne_nil).1 ((inComment_cons (List.cons_ne_nil _ _)).1 hcomment))
    simp only [List.length_append, List.length_cons]
    omega

theorem Behind.parted (h : Behind cs chunks next left) (hcode : ¬InComment chunks) : Parted cs next := by
  cases h with
  | comment hcomment => exact absurd hcomment hcode
  | code _ hparted => exact hparted

theorem Behind.tail {whole : List Char} {chunk₁ chunk₂ : Chunk}
    (hbehind : Behind whole (chunk₁ :: chunk₂ :: chunks) next left) (h : Laid nesting last cs chunks)
    (front : List Char) (heq : whole = front ++ cs) : Behind cs chunks next left := by
  subst heq
  have hsame : InComment (chunk₁ :: chunk₂ :: chunks) ↔ InComment chunks := by
    rw [inComment_cons (List.cons_ne_nil _ _), inComment_cons h.ne_nil]
  cases hbehind with
  | comment hcomment => exact .comment (hsame.1 hcomment)
  | code hcode hparted =>
    exact .code (fun hcomment => hcode (hsame.2 hcomment))
      ⟨hparted.closed.of_append front, hparted.equal, hparted.slash⟩

theorem Laid.lex_behind (h : Laid nesting last cs chunks) (hbehind : Behind cs chunks next left) :
    lex nesting last (cs ++ next) =
      (lex (nestingBehind nesting (tokens chunks)) (lastBehind last (tokens chunks)) left).map (tokens chunks ++ ·) := by
  have hnone : ∀ {r : Option (List Token)}, r.map (([] : List Token) ++ ·) = r := by
    rintro (_ | us) <;> rfl
  induction h with
  | @done nesting last gap hgap =>
    have hend := hgap.skip [] .nil ⟨1, 1⟩
    rw [List.nil_append, List.append_nil] at hend
    refine Eq.trans ?_ hnone.symm
    cases hbehind with
    | comment hcomment =>
      obtain ⟨_, hlast, hblank⟩ := hcomment
      cases hlast
      obtain ⟨q, hq⟩ := skip_line next (Position.right ⟨1, 1⟩ gap.length)
      exact lex_congr ((skip_comment hend (.inr hblank) next).trans hq)
    | code hcode =>
      have hblank : Await.Blank gap := by
        by_contra hblank
        exact hcode ⟨gap, rfl, hblank⟩
      exact lex_congr (skip_blank hblank hgap.inside next ⟨1, 1⟩)
  | @lineEnd nesting last gap rest chunks hgap hrest ih =>
    have hskip := hgap.skip [] .nil ⟨1, 1⟩
    rw [List.append_nil] at hskip
    have hline : '\n' = '/' → rest = [] → next.head? ≠ some '/' := fun h => absurd h (by decide)
    rw [lex_lineEnd (skip_append hskip hline), ih (hbehind.tail hrest (gap ++ ['\n']) (by simp)), Option.map_map]
    cases separates nesting last with
    | true =>
      rw [show tokens (.gap gap :: .lineEnd true :: chunks) = newline :: tokens chunks from rfl, lastBehind_cons]
      rfl
    | false => rfl
  | @token nesting last gap text rest counted c t chunks hgap hc hlexes hrest ih =>
    have hskip := hgap.skip [] .nil ⟨1, 1⟩
    have hread := hlexes.read [] .nil (Position.right ⟨1, 1⟩ gap.length)
    rw [List.append_nil] at hskip hread
    have hleft := hbehind.tail hrest (gap ++ c :: text) (by simp)
    have hslash : text ++ rest = [] → next.head? ≠ some '/' := by
      intro hnil
      cases hleft with
      | comment hcomment =>
        have hlength := hrest.two_le hcomment
        rw [(List.append_eq_nil_iff.1 hnil).2] at hlength
        exact absurd hlength (by decide)
      | code _ hparted => exact hparted.slash
    have hholds : Holds (c :: (text ++ rest)) rest next := by
      cases hleft with
      | comment hcomment =>
        have hlength := hrest.two_le hcomment
        constructor <;> rintro rfl <;> exact absurd hlength (by decide)
      | code hcode hparted =>
        refine ⟨fun _ => ⟨?_, hparted.equal⟩, ?_⟩
        · rw [← inComment_cons hrest.ne_nil, ← inComment_cons (List.cons_ne_nil _ _)] at hcode
          exact (hbehind.parted hcode).closed.of_append gap
        · rintro rfl
          exact absurd rfl (hparted.closed '.' rfl).2
    obtain ⟨q, hq⟩ := reread hread hholds (Position.right ⟨1, 1⟩ gap.length)
    rw [lex_token (skip_append hskip fun _ => hslash) hc hq, ih hleft, Option.map_map,
      show tokens (.gap gap :: .token t (c :: text) counted :: chunks) = t :: tokens chunks from rfl, lastBehind_cons]
    rfl

end LiveSheet.Token
