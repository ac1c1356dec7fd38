import LiveSheet.Proofs.Text.Characters
import LiveSheet.Proofs.Token.Segment

/-! The tokens of a text are those of its form. What stands behind a piece of text matters only where
it could continue the piece, so a text can be read piece by piece. -/

namespace LiveSheet.Await
open Token

/-- The characters are read as some tokens, from any place. -/
def Reads (nesting : Nat) (last : Option Token) (cs : List Char) (tokens : List Token) : Prop :=
  ∀ p, ∃ ts, scan nesting last cs p = .ok ts ∧ ts.map Placed.token = tokens

theorem scan_of_skip_nil {nesting : Nat} {last : Option Token} {cs : List Char} {p q : Position}
    (h : skip false cs p = ([], q)) : scan nesting last cs p = .ok [⟨.eof, q⟩] := by
  rw [scan.eq_def]
  split
  · rename_i heq
    cases h.symm.trans heq
    rfl
  · rename_i heq
    cases h.symm.trans heq

theorem scan_of_skip_newline {nesting : Nat} {last : Option Token} {cs rest : List Char} {p q : Position}
    (h : skip false cs p = ('\n' :: rest, q)) : scan nesting last cs p = if separates nesting last then
      (scan nesting (some newline) rest q.nextLine).map (⟨newline, q⟩ :: ·)
    else scan nesting last rest q.nextLine := by
  rw [scan.eq_def]
  split
  · rename_i heq
    cases h.symm.trans heq
  · rename_i heq
    cases h.symm.trans heq
    rw [if_pos rfl]

theorem scan_of_skip_cons {nesting : Nat} {last : Option Token} {cs rest : List Char} {c : Char} {p q : Position}
    {x : Lexeme} (h : skip false cs p = (c :: rest, q)) (hc : c ≠ '\n') (hx : read c rest q = .ok x) :
    scan nesting last cs p = (scan (nestingAfter nesting x.token) (some x.token) x.rest x.position).map
      (⟨x.token, q⟩ :: ·) := by
  rw [scan.eq_def]
  split
  · rename_i heq
    cases h.symm.trans heq
  · rename_i heq
    cases h.symm.trans heq
    rw [if_neg hc]
    split
    · rename_i heq
      cases hx.symm.trans heq
    · rename_i heq
      cases hx.symm.trans heq
      rfl

theorem scan_of_skip_error {nesting : Nat} {last : Option Token} {cs rest : List Char} {c : Char} {p q : Position}
    {e : SheetError} (h : skip false cs p = (c :: rest, q)) (hc : c ≠ '\n') (he : read c rest q = .error e) :
    scan nesting last cs p = .error e := by
  rw [scan.eq_def]
  split
  · rename_i heq
    cases h.symm.trans heq
  · rename_i heq
    cases h.symm.trans heq
    rw [if_neg hc]
    split
    · rename_i heq
      cases he.symm.trans heq
      rfl
    · rename_i heq
      cases he.symm.trans heq

theorem scan_congr {nesting : Nat} {last : Option Token} {cs cs' : List Char} {p p' : Position}
    (h : skip false cs p = skip false cs' p') : scan nesting last cs p = scan nesting last cs' p' := by
  rcases hs : skip false cs' p' with ⟨_ | ⟨c, rest⟩, q⟩
  · rw [scan_of_skip_nil hs, scan_of_skip_nil (h.trans hs)]
  · by_cases hc : c = '\n'
    · subst hc
      rw [scan_of_skip_newline hs, scan_of_skip_newline (h.trans hs)]
    · cases hx : read c rest q with
      | error e => rw [scan_of_skip_error hs hc hx, scan_of_skip_error (h.trans hs) hc hx]
      | ok x => rw [scan_of_skip_cons hs hc hx, scan_of_skip_cons (h.trans hs) hc hx]

namespace Reads

variable {nesting : Nat} {last : Option Token} {cs : List Char} {tokens : List Token}

theorem nil : Reads nesting last [] [.eof] := fun p => ⟨[⟨.eof, p⟩], scan_of_skip_nil rfl, rfl⟩

theorem blank {c : Char} (hc : c ≠ '\n') (hblank : Text.isBlank c = true) (h : Reads nesting last cs tokens) :
    Reads nesting last (c :: cs) tokens := by
  intro p
  have hskip : skip false (c :: cs) p = skip false cs (p.right 1) := by
    rw [skip, if_neg hc]
    simp [hblank]
  rw [scan_congr hskip]
  exact h (p.right 1)

theorem newline (hs : separates nesting last = true) (h : Reads nesting (some .newline) cs tokens) :
    Reads nesting last ('\n' :: cs) (.newline :: tokens) := by
  intro p
  obtain ⟨ts, hts, rfl⟩ := h p.nextLine
  refine ⟨⟨.newline, p⟩ :: ts, ?_, rfl⟩
  have hskip : skip false ('\n' :: cs) p = ('\n' :: cs, p) := rfl
  rw [scan_of_skip_newline hskip, if_pos hs, hts]
  rfl

theorem lineEnd (hs : separates nesting last = false) (h : Reads nesting last cs tokens) :
    Reads nesting last ('\n' :: cs) tokens := by
  intro p
  have hskip : skip false ('\n' :: cs) p = ('\n' :: cs, p) := rfl
  rw [scan_of_skip_newline hskip, hs]
  exact h p.nextLine

theorem cons {c : Char} {rest : List Char} {t : Token} (hline : c ≠ '\n') (hblank : Text.isBlank c = false)
    (hcomment : c = '/' → cs.head? ≠ some '/') (hread : ∀ p, ∃ q, read c cs p = .ok ⟨t, rest, q⟩)
    (h : Reads (nestingAfter nesting t) (some t) rest tokens) : Reads nesting last (c :: cs) (t :: tokens) := by
  intro p
  obtain ⟨q, hq⟩ := hread p
  obtain ⟨ts, hts, rfl⟩ := h q
  refine ⟨⟨t, p⟩ :: ts, ?_, rfl⟩
  have hskip : skip false (c :: cs) p = (c :: cs, p) := by
    rw [skip, if_neg hline]
    have hnot : ¬(c = '/' ∧ cs.head? = some '/') := fun h => hcomment h.1 h.2
    simp [hblank, hnot]
  rw [scan_of_skip_cons hskip hline hq]
  simp only [hts]
  rfl

end Reads

/-- A line end would not separate anything. -/
def fresh : Option Token → Bool
  | none | some .newline | some .semicolon => true
  | _ => false

theorem separates_eq (nesting : Nat) (last : Option Token) :
    separates nesting last = (decide (nesting = 0) && !fresh last) := by
  unfold separates fresh
  split <;> simp

theorem gapTokens_of_fresh (nesting : Nat) (gap : List Char) : gapTokens nesting true gap = [] := by
  simp [gapTokens]

theorem Reads.gap {nesting : Nat} {cs gap : List Char} {tokens : List Token} (hgap : Blank gap)
    (h : ∀ last, Reads nesting last cs tokens) (last : Option Token) :
    Reads nesting last (gap ++ cs) (gapTokens nesting (fresh last) gap ++ tokens) := by
  induction gap generalizing last with
  | nil =>
    have hnone : gapTokens nesting (fresh last) [] = [] := by simp [gapTokens]
    rw [hnone]
    exact h last
  | cons c gap ih =>
    have hblank := hgap c List.mem_cons_self
    have ih := ih fun d hd => hgap d (List.mem_cons_of_mem c hd)
    by_cases hc : c = '\n'
    · subst hc
      by_cases hs : separates nesting last = true
      · have hn : nesting = 0 ∧ fresh last = false := by simpa [separates_eq] using hs
        have heq : gapTokens nesting (fresh last) ('\n' :: gap) = [.newline] := by simp [gapTokens, hn]
        have hrest := ih (some .newline)
        rw [show fresh (some .newline) = true from rfl, gapTokens_of_fresh] at hrest
        rw [heq]
        exact .newline hs hrest
      · have hs := Bool.eq_false_iff.2 hs
        have heq : ∀ gap, gapTokens nesting (fresh last) gap = [] := by
          intro gap
          have hn : nesting = 0 → fresh last = true := by simpa [separates_eq] using hs
          unfold gapTokens
          rw [if_neg]
          rintro ⟨hzero, hfresh, _⟩
          simp [hn hzero] at hfresh
        have hrest := ih last
        rw [heq] at hrest ⊢
        exact .lineEnd hs hrest
    · have heq : gapTokens nesting (fresh last) (c :: gap) = gapTokens nesting (fresh last) gap := by
        simp [gapTokens, Ne.symm hc]
      rw [heq]
      exact .blank hc hblank (ih last)

theorem not_isBlank_of_isNamePart {c : Char} (h : Text.isNamePart c = true) : Text.isBlank c = false := by
  refine Bool.eq_false_iff.2 fun hblank => ?_
  rw [Text.not_isNamePart_of_isBlank hblank] at h
  exact Bool.false_ne_true h

theorem not_isDigit_of_isNameStart {c : Char} (hc : Text.isNameStart c = true) : c.isDigit = false := by
  refine Bool.eq_false_iff.2 fun h => ?_
  have hlt : c.toNat < 0x80 := Text.lt_of_isAlphanum (by simp [Char.isAlphanum, h])
  simp only [Text.isNameStart, Text.isLetter, if_pos hlt, Bool.or_eq_true, beq_iff_eq] at hc
  rcases hc with (hc | rfl) | rfl
  · have hdigit := Text.isDigit_iff.1 h
    have halpha := Text.isAlpha_iff.1 hc
    omega
  · cases h
  · cases h

theorem takeWhile_append_of_stop {f : Char → Bool} {xs ys : List Char} (hxs : ∀ c ∈ xs, f c = true)
    (hys : ys.head?.any f = false) : (xs ++ ys).takeWhile f = xs ∧ (xs ++ ys).dropWhile f = ys := by
  induction xs with
  | nil =>
    cases ys with
    | nil => exact ⟨rfl, rfl⟩
    | cons y ys =>
      have hy : f y = false := by simpa using hys
      simp [hy]
  | cons x xs ih =>
    have hx := hxs x List.mem_cons_self
    obtain ⟨htake, hdrop⟩ := ih fun c hc => hxs c (List.mem_cons_of_mem x hc)
    simp [hx, htake, hdrop]

theorem head?_any_dropWhile (f : Char → Bool) (cs : List Char) : (cs.dropWhile f).head?.any f = false := by
  have hstop := List.head?_dropWhile_not f cs
  cases h : (cs.dropWhile f).head? with
  | none => rfl
  | some c =>
    rw [h] at hstop
    exact hstop

theorem single?_eq_none {c : Char} (hc : c.isDigit = true ∨ Text.isNameStart c = true) : single? c = none := by
  unfold single?
  split
  case h_14 => rfl
  all_goals exact absurd hc (by decide)

theorem read_word {c : Char} {rest next : List Char} (hc : Text.isNameStart c = true)
    (hrest : ∀ d ∈ rest, Text.isNamePart d = true) (hnext : next.head?.any Text.isNamePart = false) (p : Position) :
    read c (rest ++ next) p = .ok ⟨.ofWord (String.ofList (c :: rest)), next, p.right (1 + rest.length)⟩ := by
  obtain ⟨htake, hdrop⟩ := takeWhile_append_of_stop hrest hnext
  unfold Token.read
  split
  case h_11 =>
    simp only [single?_eq_none (.inr hc), not_isDigit_of_isNameStart hc, hc, Bool.false_eq_true, if_false, if_true,
      htake, hdrop]
  all_goals exact absurd hc (by decide)

theorem readComparison_alone {alone compared : Token} {next : List Char} (h : next.head? ≠ some '=') (p : Position) :
    readComparison alone compared next p = ⟨alone, next, p.right 1⟩ := by
  unfold readComparison
  split
  · exact absurd rfl h
  · exact absurd rfl h
  · rfl

theorem readComparison_loose {alone compared : Token} {next : List Char} (h : next.head? ≠ some '=') (p : Position) :
    readComparison alone compared ('=' :: next) p = ⟨compared, next, p.right 2⟩ := by
  cases next with
  | nil => rfl
  | cons c next =>
    unfold readComparison
    split
    · rename_i heq
      cases heq
      exact absurd rfl h
    · rename_i heq
      cases heq
      rfl
    · rename_i hne
      exact absurd rfl (hne (c :: next))

theorem readOrder_strict {strict weak : Token} {next : List Char} (h : next.head? ≠ some '=') (p : Position) :
    readOrder strict weak next p = ⟨strict, next, p.right 1⟩ := by
  unfold readOrder
  split
  · exact absurd rfl h
  · rfl

theorem read_mark {m : Mark} {next : List Char} (h : m.joins next = false) : ∃ c rest, m.chars = c :: rest ∧
    c ≠ '\n' ∧ Text.isBlank c = false ∧ (c = '/' → (rest ++ next).head? ≠ some '/') ∧
    ∀ p, ∃ q, read c (rest ++ next) p = .ok ⟨m.token, next, q⟩ := by
  have hequal : ∀ m', m = m' → m'.joins next = (next.head? == some '=') → next.head? ≠ some '=' := by
    rintro _ rfl heq hhead
    rw [heq, hhead] at h
    cases h
  refine ⟨m.chars.headD ' ', m.chars.tail, by cases m <;> rfl, by cases m <;> decide, by cases m <;> decide, ?_, ?_⟩
  · cases m
    case slash => simpa [Mark.joins, Mark.chars] using h
    all_goals exact fun hc => absurd hc (by decide)
  · intro p
    cases m
    case assign | bang => exact ⟨_, congrArg Except.ok (readComparison_alone (hequal _ rfl rfl) p)⟩
    case equal | notEqual => exact ⟨_, congrArg Except.ok (readComparison_loose (hequal _ rfl rfl) p)⟩
    case less | greater => exact ⟨_, congrArg Except.ok (readOrder_strict (hequal _ rfl rfl) p)⟩
    case dot =>
      refine ⟨p.right 1, ?_⟩
      have hdigit : next.head?.any Char.isDigit = false := h
      change (if next.head?.any Char.isDigit = true then readNumber '.' next p else .ok ⟨.dot, next, p.right 1⟩) = _
      rw [hdigit]
      rfl
    all_goals exact ⟨_, rfl⟩

theorem numberText_stop {point exponent : Bool} {next : List Char} (hpart : next.head?.any Text.isNamePart = false)
    (hpoint : startsPoint next = false) : numberText point exponent next = ([], next) := by
  cases next with
  | nil => rfl
  | cons c rest =>
    have hc : Text.isNamePart c = false := by simpa using hpart
    have hdigit : c.isDigit = false := by
      refine Bool.eq_false_iff.2 fun h => ?_
      rw [Text.isNamePart_of_isDigit h] at hc
      cases hc
    have hne : ∀ d, Text.isNamePart d = true → c ≠ d := by
      rintro d hd rfl
      rw [hd] at hc
      cases hc
    have hdot : ¬(c = '.' ∧ !point ∧ !exponent ∧ rest.head?.any Char.isDigit) := by
      rintro ⟨rfl, _, _, h⟩
      cases rest with
      | nil => cases h
      | cons d rest =>
        have : d.isDigit = false := hpoint
        simp [this] at h
    have he : ¬((c = 'e' ∨ c = 'E') ∧ !exponent) := by
      rintro ⟨rfl | rfl, _⟩
      · exact hne 'e' (by decide) rfl
      · exact hne 'E' (by decide) rfl
    rw [numberText.eq_def]
    simp only [hdigit, Bool.false_eq_true, if_false, if_neg (hne '_' (by decide)), if_neg hdot, if_neg he]

theorem numberText_append {point exponent : Bool} {text digits next : List Char}
    (h : numberText point exponent text = (digits, []))
    (hlast : text.getLast?.all (fun c => c.isDigit || c == '_') = true)
    (hpart : next.head?.any Text.isNamePart = false) (hpoint : startsPoint next = false) :
    numberText point exponent (text ++ next) = (digits, next) := by
  have htail : ∀ {c rest}, (c :: rest).getLast?.all (fun c => c.isDigit || c == '_') = true →
      rest.getLast?.all (fun c => c.isDigit || c == '_') = true := by
    intro c rest h
    cases rest with
    | nil => rfl
    | cons d rest => simpa using h
  fun_induction numberText point exponent text generalizing digits with
  | case1 =>
    cases h
    exact numberText_stop hpart hpoint
  | case2 _ _ _ _ hc _ _ hx ih =>
    cases h
    rw [List.cons_append, numberText.eq_def]
    simp only [if_pos hc, ih hx (htail hlast)]
  | case3 _ _ _ hc ih =>
    rw [List.cons_append, numberText.eq_def]
    simp only [if_neg hc, if_true, ih h (htail hlast)]
  | case4 _ _ _ rest hc hunder hdot _ _ hx ih =>
    cases h
    obtain ⟨d, rest, rfl⟩ : ∃ d rest', rest = d :: rest' := by
      cases rest with
      | nil => simp at hdot
      | cons d rest => exact ⟨d, rest, rfl⟩
    have ih := ih hx (htail hlast)
    simp only [List.cons_append] at ih ⊢
    rw [numberText.eq_def]
    simp only [List.head?_cons] at hdot
    simp only [List.head?_cons, if_neg hc, if_neg hunder, if_pos hdot, ih]
  | case5 _ _ _ hc hunder he s rest hs _ _ hx hdot ih =>
    cases h
    rw [List.cons_append, List.cons_append, numberText.eq_def]
    simp only [List.head?_cons] at hdot
    simp only [List.head?_cons, if_neg hc, if_neg hunder, if_neg hdot, if_pos he, if_pos hs, ih hx (htail (htail hlast))]
  | case6 _ _ _ hc hunder he s rest hs _ _ hx hdot ih =>
    cases h
    have ih := ih hx (htail hlast)
    simp only [List.cons_append] at ih
    rw [List.cons_append, List.cons_append, numberText.eq_def]
    simp only [List.head?_cons] at hdot
    simp only [List.head?_cons, if_neg hc, if_neg hunder, if_neg hdot, if_pos he, if_neg hs, ih]
  | case7 _ _ c hc hunder _ =>
    simp only [List.getLast?_singleton, Option.all_some, Bool.or_eq_true, beq_iff_eq] at hlast
    rcases hlast with h | h
    · exact absurd h hc
    · exact absurd h hunder
  | case8 => cases h

theorem read_digit {c : Char} (hc : c.isDigit = true) (rest : List Char) (p : Position) :
    read c rest p = readNumber c rest p := by
  unfold Token.read
  split
  case h_11 => simp only [single?_eq_none (.inl hc), hc, if_true]
  all_goals exact absurd hc (by decide)

theorem read_number {first : Char} {text digits next : List Char} {value : Float}
    (h : (Atom.number first text digits value).Fits next) (p : Position) :
    ∃ q, read first (text ++ next) p = .ok ⟨.number value, next, q⟩ := by
  obtain ⟨hfirst, htext, hvalue, hlast, hpart, hpoint⟩ := h
  have hlast : text.getLast?.all (fun c => c.isDigit || c == '_') = true := by
    cases text with
    | nil => rfl
    | cons c text =>
      rw [List.getLast?_cons_cons, List.getLast?_eq_some_getLast (List.cons_ne_nil c text)] at hlast
      rw [List.getLast?_eq_some_getLast (List.cons_ne_nil c text)]
      exact hlast
  have hread : ∃ q, readNumber first (text ++ next) p = .ok ⟨.number value, next, q⟩ := by
    refine ⟨p.right (1 + ((text ++ next).length - next.length)), ?_⟩
    simp only [readNumber, numberText_append htext hlast hpart hpoint, hvalue]
  rcases hfirst with hdigit | ⟨rfl, hhead⟩
  · rwa [read_digit hdigit]
  · have hhead : (text ++ next).head?.any Char.isDigit = true := by
      cases text with
      | nil => cases hhead
      | cons c text => exact hhead
    change ∃ q, (if (text ++ next).head?.any Char.isDigit = true then readNumber '.' (text ++ next) p
      else .ok ⟨.dot, text ++ next, p.right 1⟩) = _
    rw [hhead]
    exact hread

theorem Atom.Fits.read {a : Atom} {next : List Char} (h : a.Fits next) : ∃ c rest, a.chars = c :: rest ∧
    c ≠ '\n' ∧ Text.isBlank c = false ∧ (c = '/' → (rest ++ next).head? ≠ some '/') ∧
    ∀ p, ∃ q, Token.read c (rest ++ next) p = .ok ⟨a.token, next, q⟩ := by
  have hname : ∀ c, Text.isNamePart c = true → c ≠ '\n' ∧ Text.isBlank c = false ∧ c ≠ '/' := by
    intro c hc
    refine ⟨?_, not_isBlank_of_isNamePart hc, ?_⟩
    all_goals
      rintro rfl
      exact absurd hc (by decide)
  cases a with
  | word text =>
    obtain ⟨⟨c, rest, rfl, hc⟩, hall, hnext⟩ := h
    obtain ⟨hline, hblank, hslash⟩ := hname c (Text.isNamePart_of_isNameStart hc)
    exact ⟨c, rest, rfl, hline, hblank, fun hc => absurd hc hslash,
      fun p => ⟨_, read_word hc (fun d hd => hall d (List.mem_cons_of_mem c hd)) hnext p⟩⟩
  | mark m => exact read_mark h
  | number first text digits value =>
    have hfirst : first ≠ '\n' ∧ Text.isBlank first = false ∧ first ≠ '/' := by
      rcases h.1 with hdigit | ⟨rfl, _⟩
      · exact hname first (Text.isNamePart_of_isDigit hdigit)
      · decide
    exact ⟨first, text, rfl, hfirst.1, hfirst.2.1, fun hc => absurd hc hfirst.2.2, read_number h⟩
  | quoted quote body =>
    obtain ⟨hquote, hbody⟩ := h
    have hfirst : quote ≠ '\n' ∧ Text.isBlank quote = false ∧ quote ≠ '/' := by
      rcases hquote with rfl | rfl <;> decide
    refine ⟨quote, spell body ++ [quote], rfl, hfirst.1, hfirst.2.1, fun hc => absurd hc hfirst.2.2, ?_⟩
    rw [List.append_assoc]
    exact fun p => ⟨_, read_quoted hquote hbody next p⟩

def Segments.list : Segments → List Segment
  | .last text => text.map .text
  | .code text inner rest => text.map .text ++ .code inner.chars :: rest.list

theorem Segments.flatMap_raw_list (body : Segments) : body.list.flatMap Segment.raw = body.raw := by
  induction body using Segments.list.induct with
  | case1 text =>
    rw [list, raw, List.flatMap_map]
    rfl
  | case2 text inner rest ih =>
    rw [list, raw, List.flatMap_append, List.flatMap_map, List.flatMap_cons, ih]
    simp [Segment.raw]

theorem segmented_spell {text : List Glyph} (h : Glyph.Literal text) {next left : List Char} {body : List Segment}
    (hnext : next.head? ≠ some '\x7b') (hbody : Segmented next body left) :
    Segmented (spell text ++ next) (text.map .text ++ body) left := by
  induction text with
  | nil => exact hbody
  | cons g text ih =>
    cases g with
    | plain c =>
      obtain ⟨htick, hslash, hdollar, htext⟩ := h
      refine .plain htick hslash (fun hc => ?_) (ih htext)
      rcases text with _ | ⟨d | d, text⟩
      · exact hnext
      · simpa [Glyph.chars] using (hdollar hc).1
      · simp [Glyph.chars]
    | escaped c => exact .escaped c (ih h)

theorem Segments.Spells.segmented {names : List String} : ∀ {body : Segments}, body.Spells names → ∀ next,
    Segmented (body.chars ++ '\x60' :: next) body.list next
  | .last text, h, next => by
    have hsegmented : Segmented (spell text ++ '\x60' :: next) (text.map .text ++ []) next :=
      segmented_spell h (by simp) (.done next)
    rwa [List.append_nil] at hsegmented
  | .code text inner rest, ⟨htext, _, hcode, hrest⟩, next => by
    have hchars : (Segments.code text inner rest).chars ++ '\x60' :: next =
        spell text ++ '$' :: '\x7b' :: (inner.chars ++ '\x7d' :: (rest.chars ++ '\x60' :: next)) := by
      simp [Segments.chars]
    rw [hchars]
    exact segmented_spell htext (by simp) (.code rfl hcode (Segments.Spells.segmented hrest next))

theorem nestingAfter_atom (nesting : Nat) (a : Atom) : nestingAfter nesting a.token = nesting := by
  cases a with
  | word text =>
    simp only [Atom.token, ofWord]
    repeat' split
    all_goals rfl
  | mark m => cases m <;> rfl
  | number _ _ _ _ => rfl
  | quoted _ _ => rfl

theorem fresh_atom (a : Atom) : fresh (some a.token) = decide (a.token = .semicolon) := by
  cases a with
  | word text =>
    simp only [Atom.token, ofWord]
    repeat' split
    all_goals simp [fresh]
  | mark m => cases m <;> simp [Atom.token, Mark.token, fresh]
  | number _ _ _ _ => simp [Atom.token, fresh]
  | quoted _ _ => simp [Atom.token, fresh]

theorem Reads.atom {nesting : Nat} {last : Option Token} {a : Atom} {next : List Char} {tokens : List Token}
    (h : a.Fits next) (hrest : Reads nesting (some a.token) next tokens) :
    Reads nesting last (a.chars ++ next) (a.token :: tokens) := by
  obtain ⟨c, rest, hchars, hline, hblank, hcomment, hread⟩ := h.read
  rw [hchars]
  refine .cons hline hblank hcomment hread ?_
  rw [nestingAfter_atom]
  exact hrest

theorem Identifier.exists_cons {text : List Char} (h : Identifier text) : ∃ c rest, text = c :: rest ∧
    Text.isVariableStart c = true ∧ ∀ d ∈ text, Text.isVariablePart d = true := by
  cases text with
  | nil => cases h.1
  | cons c rest =>
    have hname : (Text.isVariableStart c && rest.all Text.isVariablePart) = true := h.1
    simp only [Bool.and_eq_true, List.all_eq_true] at hname
    refine ⟨c, rest, rfl, hname.1, fun d hd => ?_⟩
    rcases List.mem_cons.1 hd with rfl | hd
    · exact Text.isVariablePart_of_isVariableStart hname.1
    · exact hname.2 d hd

theorem Identifier.fits {text next : List Char} (h : Identifier text)
    (hnext : next.head?.any Text.isNamePart = false) : (Atom.word text).Fits next := by
  obtain ⟨c, rest, rfl, hc, hall⟩ := h.exists_cons
  exact ⟨⟨c, rest, rfl, Text.isNameStart_of_isVariableStart hc⟩,
    fun d hd => Text.isNamePart_of_isVariablePart (hall d hd), hnext⟩

theorem head_not_isNamePart {gap next : List Char} (hgap : Blank gap)
    (hnext : next.head?.any Text.isNamePart = false) : (gap ++ next).head?.any Text.isNamePart = false := by
  cases gap with
  | nil => exact hnext
  | cons c gap => simpa using Text.not_isNamePart_of_isBlank (hgap c List.mem_cons_self)

theorem Reads.identifier {nesting : Nat} {last : Option Token} {text gap next : List Char} {tokens : List Token}
    (h : Identifier text) (hgap : Blank gap) (hline : nesting = 0 → '\n' ∉ gap)
    (hnext : next.head?.any Text.isNamePart = false) (hrest : ∀ last, Reads nesting last next tokens) :
    Reads nesting last (text ++ (gap ++ next)) (.identifier (String.ofList text) :: tokens) := by
  rw [← h.2]
  refine .atom (a := .word text) (h.fits (head_not_isNamePart hgap hnext)) ?_
  have hnone : ∀ fresh, gapTokens nesting fresh gap = [] := by
    intro fresh
    rw [gapTokens, if_neg]
    rintro ⟨hzero, _, hmem⟩
    exact hline hzero hmem
  have hreads := Reads.gap hgap hrest (some (Atom.word text).token)
  rw [hnone] at hreads
  exact hreads

theorem Target.reads {names : List String} {nesting : Nat} {last : Option Token} {t : Target}
    (h : t.Fits names) (hline : nesting = 0 → '\n' ∉ t.chars) {next : List Char} {tokens : List Token}
    (hrest : ∀ last, Reads nesting last ('(' :: next) tokens) :
    Reads nesting last (t.chars ++ '(' :: next) (t.tokens ++ tokens) := by
  cases t with
  | name text gap =>
    obtain ⟨_, htext, hgap⟩ := h
    rw [Target.chars, List.append_assoc]
    exact .identifier htext hgap (fun hzero hmem => hline hzero (by simp [Target.chars, hmem])) rfl hrest
  | path owner gap₁ gap₂ text gap₃ =>
    obtain ⟨_, howner, htext, hgap₁, hgap₂, hgap₃⟩ := h
    have hchars : (Target.path owner gap₁ gap₂ text gap₃).chars ++ '(' :: next =
        owner ++ (gap₁ ++ '.' :: (gap₂ ++ (text ++ (gap₃ ++ '(' :: next)))) := by
      simp [Target.chars]
    rw [hchars]
    have hline : ∀ gap, (gap = gap₁ ∨ gap = gap₂ ∨ gap = gap₃) → nesting = 0 → '\n' ∉ gap := by
      rintro gap hgap hzero hmem
      refine hline hzero ?_
      rcases hgap with rfl | rfl | rfl <;> simp [Target.chars, hmem]
    refine .identifier howner hgap₁ (hline _ (Or.inl rfl)) rfl fun last => ?_
    have hdot : (Atom.mark .dot).Fits (gap₂ ++ (text ++ (gap₃ ++ '(' :: next))) := by
      change (gap₂ ++ (text ++ (gap₃ ++ '(' :: next))).head?.any Char.isDigit = false
      cases gap₂ with
      | nil =>
        obtain ⟨c, rest, rfl, hc, _⟩ := htext.exists_cons
        simpa using not_isDigit_of_isNameStart (Text.isNameStart_of_isVariableStart hc)
      | cons c gap =>
        have hblank := Text.not_isNamePart_of_isBlank (hgap₂ c List.mem_cons_self)
        refine Bool.eq_false_iff.2 fun hdigit => ?_
        have hdigit : c.isDigit = true := by simpa using hdigit
        rw [Text.isNamePart_of_isDigit hdigit] at hblank
        cases hblank
    refine .atom (a := .mark .dot) hdot ?_
    have hmember : ∀ last, Reads nesting last (text ++ (gap₃ ++ '(' :: next)) (.identifier (String.ofList text) :: tokens) :=
      fun last => .identifier htext hgap₃ (hline _ (Or.inr (Or.inr rfl))) rfl hrest
    have hreads := Reads.gap hgap₂ hmember (some .dot)
    have hnone : gapTokens nesting (fresh (some .dot)) gap₂ = [] := by
      rw [gapTokens, if_neg]
      rintro ⟨hzero, _, hmem⟩
      exact hline _ (Or.inr (Or.inl rfl)) hzero hmem
    rw [hnone] at hreads
    exact hreads

theorem Bracket.reads_opening {nesting : Nat} {last : Option Token} (b : Bracket) {next : List Char}
    {tokens : List Token} (h : Reads (nesting + 1) (some b.openingToken) next tokens) :
    Reads nesting last (b.opening :: next) (b.openingToken :: tokens) := by
  cases b
  all_goals exact .cons (by decide) (by decide) (fun hc => absurd hc (by decide)) (fun p => ⟨p.right 1, rfl⟩) h

theorem Bracket.reads_closing {nesting : Nat} {last : Option Token} (b : Bracket) {next : List Char}
    {tokens : List Token} (h : Reads nesting (some b.closingToken) next tokens) :
    Reads (nesting + 1) last (b.closing :: next) (b.closingToken :: tokens) := by
  cases b
  all_goals exact .cons (by decide) (by decide) (fun hc => absurd hc (by decide)) (fun p => ⟨p.right 1, rfl⟩) h

theorem Source.reads {names : List String} : ∀ {src : Source} {nesting : Nat} {next : List Char} {tokens : List Token},
    src.Spells names nesting next → (∀ last, Reads nesting last next tokens) → ∀ last,
    Reads nesting last (src.chars ++ next) (src.tokens nesting (fresh last) ++ tokens)
  | .done gap, _, _, _, hgap, hnext, last => Reads.gap hgap hnext last
  | .leaf gap atom rest, nesting, next, tokens, ⟨hgap, hatom, hrest⟩, hnext, last => by
    have hrest := Source.reads hrest hnext (some atom.token)
    rw [fresh_atom] at hrest
    rw [Source.chars, Source.tokens, List.append_assoc, List.append_assoc, List.append_assoc, List.cons_append]
    exact Reads.gap hgap (fun _ => .atom hatom hrest) last
  | .template gap body rest, nesting, next, tokens, ⟨hgap, hbody, hrest⟩, hnext, last => by
    have hrest : Reads nesting (some (.template (String.ofList body.raw))) (rest.chars ++ next)
        (rest.tokens nesting false ++ tokens) :=
      Source.reads hrest hnext (some (.template (String.ofList body.raw)))
    rw [Source.chars, Source.tokens, List.append_assoc, List.append_assoc, List.cons_append, List.cons_append,
      List.append_assoc, List.cons_append]
    refine Reads.gap hgap (fun last => ?_) last
    refine .cons (t := .template (String.ofList body.raw)) (by decide) (by decide) (fun hc => absurd hc (by decide)) ?_ hrest
    rw [← body.flatMap_raw_list]
    exact fun p => ⟨_, (hbody.segmented _).read p⟩
  | .group gap bracket inner rest, nesting, next, tokens, ⟨hgap, hinner, hrest⟩, hnext, last => by
    have hrest : Reads nesting (some bracket.closingToken) (rest.chars ++ next) (rest.tokens nesting false ++ tokens) := by
      have hrest := Source.reads hrest hnext (some bracket.closingToken)
      cases bracket <;> exact hrest
    have hinner : Reads (nesting + 1) (some bracket.openingToken)
        (inner.chars ++ bracket.closing :: (rest.chars ++ next)) (inner.tokens (nesting + 1) false ++
          bracket.closingToken :: (rest.tokens nesting false ++ tokens)) := by
      have hinner := Source.reads hinner (fun _ => bracket.reads_closing hrest) (some bracket.openingToken)
      cases bracket <;> exact hinner
    rw [Source.chars, Source.tokens, List.append_assoc, List.append_assoc, List.cons_append, List.cons_append,
      List.append_assoc, List.append_assoc, List.cons_append, List.cons_append]
    exact Reads.gap hgap (fun _ => bracket.reads_opening hinner) last
  | .call gap target args rest, nesting, next, tokens, ⟨hgap, htarget, hline, hargs, hrest⟩, hnext, last => by
    have hrest := Source.reads hrest hnext (some .rightParen)
    have hargs := Source.reads hargs (fun _ => Bracket.round.reads_closing hrest) (some .leftParen)
    have hcall : ∀ last, Reads nesting last ('(' :: (args.chars ++ ')' :: (rest.chars ++ next)))
        (.leftParen :: (args.tokens (nesting + 1) false ++ .rightParen :: (rest.tokens nesting false ++ tokens))) :=
      fun _ => Bracket.round.reads_opening hargs
    have hchars : (Source.call gap target args rest).chars ++ next =
        gap ++ (target.chars ++ '(' :: (args.chars ++ ')' :: (rest.chars ++ next))) := by
      simp [Source.chars]
    have htokens : (Source.call gap target args rest).tokens nesting (fresh last) ++ tokens =
        gapTokens nesting (fresh last) gap ++ (target.tokens ++ .leftParen :: (args.tokens (nesting + 1) false ++
          .rightParen :: (rest.tokens nesting false ++ tokens))) := by
      simp [Source.tokens]
    rw [hchars, htokens]
    exact Reads.gap hgap (fun _ => Target.reads htarget hline hcall) last

end LiveSheet.Await
