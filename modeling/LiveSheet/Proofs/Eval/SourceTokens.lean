import LiveSheet.Proofs.Eval.Inert
import LiveSheet.Proofs.Token.Resume

/-! The tokens of the source text of a value: an operand, maybe with a sign in front. The text behind is read as if it
stood alone, unless it starts with a part of a name or with a point and a digit. -/

namespace LiveSheet.Eval
open Await Token LiveSheet.Parser

/-- The text does not go on with a word or a number in front of it. -/
structure Clear (next : List Char) : Prop where
  part : next.head?.any Text.isNamePart = false
  point : startsPoint next = false

/-- The characters are the tokens, and the clear text behind is read on. -/
def Says (cs : List Char) (ts : List Token) : Prop := ∀ nesting last next, Clear next →
  lex nesting last (cs ++ next) = (lex nesting (some .nullWord) next).map (ts ++ ·)

/-- The text starts with neither a sign or a bracket nor the name of a constant. -/
def Simple (cs : List Char) : Prop := ∀ c ∈ cs.head?, c ∉ ['-', '(', '[', 'I', 'N']

variable {nesting : Nat} {last : Option Token} {cs next : List Char} {c : Char} {t : Token} {ts : List Token} {a : Atom}

theorem clear_of_head (hc : Text.isNamePart c = false) (hpoint : c ≠ '.') (next : List Char) : Clear (c :: next) := by
  refine ⟨hc, ?_⟩
  unfold startsPoint
  split
  · next heq => exact absurd (List.cons.inj heq).1 hpoint
  · rfl

theorem says_atom (hfits : ∀ next, Clear next → a.Fits next) (hfresh : fresh (some a.token) = false) :
    Says a.chars [a.token] := by
  intro nesting last next hnext
  rw [lex_atom (hfits next hnext), nestingAfter_atom, lex_operand hfresh]
  rfl

theorem Says.negated (h : Says cs ts) : Says ('-' :: cs) (.minus :: ts) := by
  intro nesting last next hnext
  rw [List.cons_append, lex_single (t := .minus) rfl (by decide), h _ _ next hnext, Option.map_map]
  rfl

theorem Says.enclosed (h : Says cs ts) : Says ('(' :: (cs ++ [')'])) (.leftParen :: (ts ++ [.rightParen])) := by
  intro nesting last next hnext
  have hclose : Clear (')' :: next) := clear_of_head (by decide) (by decide) next
  simp only [List.cons_append, List.append_assoc, List.nil_append]
  rw [lex_single (t := .leftParen) rfl (by decide), h _ _ _ hclose, lex_single (t := .rightParen) rfl (by decide),
    lex_operand (show fresh (some .rightParen) = false from rfl), Option.map_map, Option.map_map]
  refine congrArg₂ Option.map (funext fun us => ?_) rfl
  simp

/-! ## Words, strings and numbers -/

theorem says_word {word : String} (h : Printing.Wordlike word) (hfresh : fresh (some (ofWord word)) = false) :
    Says word.toList [ofWord word] := by
  obtain ⟨c, rest, hchars, hc, hrest⟩ := h
  have hall : ∀ d ∈ word.toList, Text.isNamePart d = true := by
    rw [hchars]
    exact List.forall_mem_cons.2 ⟨Text.isNamePart_of_isNameStart hc, hrest⟩
  have htoken : (Atom.word word.toList).token = ofWord word := congrArg ofWord String.ofList_toList
  have hsays := says_atom (a := .word word.toList) (fun next hnext => ⟨⟨c, rest, hchars, hc⟩, hall, hnext.part⟩)
    (htoken ▸ hfresh)
  rwa [htoken] at hsays

theorem says_null : Says "null".toList [.nullWord] := by
  have hword : ofWord "null" = .nullWord := by decide
  exact hword ▸ says_word ⟨'n', _, rfl, by decide, by decide⟩ (hword ▸ rfl)

theorem says_quote (s : String) :
    Says (Text.Quoted.quote s.toList) [.string (String.ofList (s.toList.flatMap Value.misread))] := by
  have hspell : Text.Quoted.encode s.toList = spell (s.toList.flatMap glyphs) := by
    rw [spell, List.flatMap_assoc]
    exact congrArg s.toList.flatMap (funext fun c => (glyphs_spec c).1.symm)
  have hvalue : (s.toList.flatMap glyphs).map Glyph.value = s.toList.flatMap Value.misread := by
    rw [List.map_flatMap]
    exact congrArg s.toList.flatMap (funext fun c => (glyphs_spec c).2.1)
  have hfits : ∀ next, Clear next → (Atom.quoted '"' (s.toList.flatMap glyphs)).Fits next := by
    refine fun next _ => ⟨.inl rfl, fun g hg => ?_⟩
    obtain ⟨c, _, hg⟩ := List.mem_flatMap.1 hg
    exact (glyphs_spec c).2.2 g hg
  rw [Text.Quoted.quote, hspell, ← hvalue]
  exact says_atom hfits rfl

theorem isSome_exponent? {exponent : List Char}
    (h : exponent = [] ∨ ∃ sign ds, exponent = 'e' :: (sign ++ ds) ∧ sign ∈ [[], ['+'], ['-']] ∧ Printing.Digits ds) :
    (Number.exponent? exponent).isSome = true := by
  rcases h with rfl | ⟨sign, ds, rfl, hsign, hds⟩
  · rfl
  · have hdigits : Number.exponent?.digits? ds = some (Number.digitsValue ds) := by
      refine if_neg ?_
      simp [hds.1, List.all_eq_true.2 hds.2]
    obtain ⟨d, rest, rfl⟩ := List.exists_cons_of_ne_nil hds.1
    have hd := hds.2 d List.mem_cons_self
    simp only [List.mem_cons, List.not_mem_nil, or_false] at hsign
    rcases hsign with rfl | rfl | rfl
    · rw [List.nil_append, Number.exponent?.eq_def]
      simp only [true_or, if_true]
      split
      · next heq =>
        rw [(List.cons.inj heq).1] at hd
        cases hd
      · next heq =>
        rw [(List.cons.inj heq).1] at hd
        cases hd
      · rw [hdigits]
        rfl
    · rw [List.singleton_append, Number.exponent?.eq_def]
      simp only [true_or, if_true, hdigits]
      rfl
    · rw [List.singleton_append, Number.exponent?.eq_def]
      simp only [true_or, if_true, hdigits]
      rfl

theorem isSome_read? {digits : List Char} (h : Printing.Decimal digits) : (Number.read? digits).isSome = true := by
  rw [Number.read?_digits h]
  obtain ⟨whole, fraction, exponent, rfl, hwhole, hfraction, hexponent⟩ := h
  have hpower := isSome_exponent? hexponent
  have hstop : exponent.head?.any Char.isDigit = false := by
    rcases hexponent with rfl | ⟨sign, ds, rfl, _⟩ <;> rfl
  have hpoint : ∀ ds, exponent ≠ '.' :: ds := by
    rintro ds rfl
    rcases hexponent with h | ⟨_, _, h, _⟩ <;> cases h
  have hnext : (fraction ++ exponent).head?.any Char.isDigit = false := by
    rcases hfraction with rfl | ⟨ds, rfl, _⟩
    · exact hstop
    · rfl
  obtain ⟨htake, hdrop⟩ := takeWhile_append_of_stop hwhole.2 hnext
  simp only [Number.unsigned?]
  split
  · rfl
  · split
    · rfl
    · have hempty : whole.isEmpty = false := by simpa using hwhole.1
      simp only [Number.decimal?, htake, hdrop, hempty, Bool.false_and, Bool.false_eq_true, if_false,
        Option.isSome_map]
      rcases hfraction with rfl | ⟨ds, rfl, hds⟩
      · split
        · next heq => exact absurd heq (hpoint _)
        · exact hpower
      · obtain ⟨_, hrest⟩ := takeWhile_append_of_stop hds.2 hstop
        rw [List.cons_append]
        simp only [hrest]
        exact hpower

theorem says_number {digits : List Char} (h : Printing.Decimal digits) : ∃ x, Says digits [.number x] := by
  obtain ⟨x, hx⟩ := Option.isSome_iff_exists.1 (isSome_read? h)
  obtain ⟨first, rest, rfl, hfirst, htext, hlast⟩ := h.exists_cons
  exact ⟨x, says_atom (a := .number first rest rest x)
    (fun next hnext => ⟨.inl hfirst, htext, hx, hlast, hnext.part, hnext.point⟩) rfl⟩

/-! ## Values -/

theorem says_finite (n : Float) : ∃ ts e, Depicts ts e ∧ Says (Number.dataFile.writeShort n).toList ts ∧
    (Simple (Number.dataFile.writeShort n).toList → ∃ t, ts = [t] ∧ literal t = true) := by
  rcases Number.writeShort_cases n with hnull | ⟨sign, digits, htext, rfl | rfl, hdecimal⟩
  · rw [hnull]
    exact ⟨_, _, depicts_atom rfl .null, says_null, fun _ => ⟨_, rfl, rfl⟩⟩
  · obtain ⟨x, hx⟩ := says_number hdecimal
    rw [htext]
    exact ⟨_, _, depicts_atom rfl (.number x), hx, fun _ => ⟨_, rfl, rfl⟩⟩
  · obtain ⟨x, hx⟩ := says_number hdecimal
    rw [htext]
    exact ⟨_, _, .negated (depicts_atom rfl (.number x)), hx.negated, fun h => absurd (by decide) (h '-' rfl)⟩

theorem says_infinite (n : Float) : ∃ ts e, Depicts ts e ∧
    Says (if n < 0 then "(-Infinity)" else "Infinity").toList ts ∧
    ¬Simple (if n < 0 then "(-Infinity)" else "Infinity").toList := by
  have hinfinity : Says "Infinity".toList [.identifier "Infinity"] := by
    have hword : ofWord "Infinity" = .identifier "Infinity" := by decide
    exact hword ▸ says_word ⟨'I', _, rfl, by decide, by decide⟩ (hword ▸ rfl)
  have hname : Depicts [.identifier "Infinity"] (.identifier "Infinity") := depicts_atom rfl .infinity
  split
  · exact ⟨_, _, .bare (fun template => .group (hname.negated.derives template)) hname.negated.inert,
      hinfinity.negated.enclosed, fun h => absurd (by decide) (h '(' rfl)⟩
  · exact ⟨_, _, hname, hinfinity, fun h => absurd (by decide) (h 'I' rfl)⟩

mutual

theorem exists_depicted : ∀ v : Value, ∃ ts e, Depicts ts e ∧ Says v.sourceChars ts ∧
    (Simple v.sourceChars → ∃ t, ts = [t] ∧ literal t = true)
  | .null => ⟨_, _, depicts_atom rfl .null, says_null, fun _ => ⟨_, rfl, rfl⟩⟩
  | .bool false => ⟨_, _, depicts_atom rfl (.boolean false), says_word ⟨'f', _, rfl, by decide, by decide⟩ rfl,
      fun _ => ⟨_, rfl, rfl⟩⟩
  | .bool true => ⟨_, _, depicts_atom rfl (.boolean true), says_word ⟨'t', _, rfl, by decide, by decide⟩ rfl,
      fun _ => ⟨_, rfl, rfl⟩⟩
  | .number n => by
    rw [Value.sourceChars]
    split
    · have hword : ofWord "NaN" = .identifier "NaN" := by decide
      have hsays : Says "NaN".toList [.identifier "NaN"] :=
        hword ▸ says_word ⟨'N', _, rfl, by decide, by decide⟩ (hword ▸ rfl)
      exact ⟨_, _, depicts_atom rfl .nan, hsays, fun h => absurd (by decide) (h 'N' rfl)⟩
    · split
      · obtain ⟨ts, e, hdepicts, hsays, hsimple⟩ := says_infinite n
        exact ⟨ts, e, hdepicts, hsays, fun h => absurd h hsimple⟩
      · rw [Value.toJson]
        split
        · exact says_finite n
        · exact ⟨_, _, depicts_atom rfl .null, says_null, fun _ => ⟨_, rfl, rfl⟩⟩
  | .string s => ⟨_, _, depicts_atom rfl (.string _), says_quote s, fun _ => ⟨_, rfl, rfl⟩⟩
  | .array items => by
    obtain ⟨pairs, _, hdepicts, hsays⟩ := exists_items items
    refine ⟨_, _, depicts_array hdepicts, fun nesting last next _ => ?_, fun h => absurd (by decide) (h '[' rfl)⟩
    rw [Value.sourceChars, Json.enclose]
    simp only [List.cons_append, List.append_assoc, List.nil_append]
    rw [lex_single (t := .leftBracket) rfl (by decide), nestingAfter, hsays,
      lex_operand (show fresh (some .rightBracket) = false from rfl), Option.map_map]
    refine congrArg₂ Option.map (funext fun us => ?_) rfl
    simp

theorem exists_items : ∀ vs : List Value, ∃ pairs : List (List Token × Expr), pairs.length = vs.length ∧
    (∀ pair ∈ pairs, Depicts pair.1 pair.2) ∧
    ∀ nesting last next, lex (nesting + 1) last ([','].intercalate (Value.sourceItems vs) ++ ']' :: next) =
      (lex nesting (some .rightBracket) next).map
        ([Token.comma].intercalate (pairs.map Prod.fst) ++ .rightBracket :: ·)
  | [] => ⟨[], rfl, List.forall_mem_nil _,
    fun nesting last next => lex_single (t := .rightBracket) rfl (by decide) next⟩
  | v :: vs => by
    obtain ⟨ts, e, hdepicts, hread, _⟩ := exists_depicted v
    obtain ⟨pairs, hlength, hpairs, hreads⟩ := exists_items vs
    refine ⟨(ts, e) :: pairs, by rw [List.length_cons, hlength, List.length_cons],
      List.forall_mem_cons.2 ⟨hdepicts, hpairs⟩, fun nesting last next => ?_⟩
    cases vs with
    | nil =>
      obtain rfl := List.eq_nil_of_length_eq_zero hlength
      rw [Value.sourceItems, Value.sourceItems, List.map_singleton, List.intercalate_singleton,
        List.intercalate_singleton, hread _ _ _ (clear_of_head (by decide) (by decide) next),
        lex_single (t := .rightBracket) rfl (by decide), Option.map_map]
      rfl
    | cons v' vs =>
      obtain ⟨pair, pairs, rfl⟩ :=
        List.exists_cons_of_length_pos (l := pairs) (by rw [hlength, List.length_cons]; exact Nat.succ_pos _)
      rw [Value.sourceItems, Value.sourceItems, List.map_cons, List.map_cons, List.intercalate_cons_cons,
        List.intercalate_cons_cons, ← Value.sourceItems, ← List.map_cons]
      simp only [List.append_assoc, List.cons_append, List.nil_append]
      rw [hread _ _ _ (clear_of_head (c := ',') (by decide) (by decide) _), lex_single (t := .comma) rfl (by decide),
        show nestingAfter (nesting + 1) .comma = nesting + 1 from rfl, hreads, Option.map_map, Option.map_map]
      refine congrArg₂ Option.map (funext fun us => ?_) rfl
      simp

end

theorem Says.tokenize (h : Says cs ts) : ∃ placed, Token.tokenize cs = .ok placed ∧
    placed.map (·.token) = ts ++ [.eof] := by
  have hlex : lex 0 none cs = some (ts ++ [.eof]) := by
    have hsays := h 0 none [] ⟨rfl, rfl⟩
    rwa [List.append_nil, lex_nil] at hsays
  obtain ⟨chunks, hchunks, heq⟩ := lex_eq_some.1 hlex
  exact ⟨_, hchunks.scan_eq _, by rw [heq]; simp [map_token_placed]⟩

/-- The source text of a value, whatever is in it, is the text of an expression that holds values and does nothing: it
has no call, no member, no index, no template and no name but those of two constants. A string is one token. -/
theorem parse_source_inert {σ : Type} (v : Value) (s : String) :
    (∃ placed e, Token.tokenize v.source.toList = .ok placed ∧ Expr.parse v.source = .ok e ∧ e.Inert ∧
      ∀ (env : Setting σ) awaited m, ∃ w, exec (eval env awaited e) m = (.ok w, m)) ∧
    ∃ placed, Token.tokenize (Value.string s).source.toList = .ok placed ∧
      placed.map (·.token) = [.string (String.ofList (s.toList.flatMap Value.misread)), .eof] := by
  constructor
  · obtain ⟨ts, e, hdepicts, hsays, _⟩ := exists_depicted v
    obtain ⟨placed, hplaced, htokens⟩ := hsays.tokenize
    have hinert := hdepicts.inert
    refine ⟨placed, e, ?_, ?_, hinert, fun env awaited m => exec_inert hinert env awaited m⟩
    · rwa [Value.source, String.toList_ofList]
    · obtain ⟨phrase, rest, rfl, hphrase, hend⟩ := List.map_eq_append_iff.1 htokens
      obtain ⟨⟨_, p⟩, rfl, rfl⟩ := List.map_eq_singleton_iff.1 hend
      have hend : ([] : Tokens).map (·.token) = newlines 0 := rfl
      rw [Value.source, Expr.parse, String.toList_ofList, expressionOf, hplaced]
      exact (hdepicts.derives _).only hphrase hend p []
  · rw [Value.source, String.toList_ofList]
    exact (says_quote s).tokenize

/-! ## The line -/

/-- The text stays on its line, and does not make a longer operator or a comment of what is in front. -/
structure Inline (cs : List Char) : Prop where
  head : ∃ c rest, cs = c :: rest ∧ c ≠ '=' ∧ c ≠ '/'
  line : '\n' ∉ cs

theorem inline_word {cs : List Char} (h : ∃ c rest, cs = c :: rest ∧ c ∉ ['=', '/'] ∧ '\n' ∉ cs) : Inline cs := by
  obtain ⟨c, rest, rfl, hc, hline⟩ := h
  exact ⟨⟨c, rest, rfl, fun h => hc (by simp [h]), fun h => hc (by simp [h])⟩, hline⟩

theorem inline_quote (cs : List Char) : Inline (Text.Quoted.quote cs) := by
  have hhex : ∀ n < 32, (n / 16).digitChar ≠ '\n' ∧ (n % 16).digitChar ≠ '\n' := by decide
  have hencode : ∀ c, '\n' ∉ Text.Quoted.encodeChar c := by
    intro c
    unfold Text.Quoted.encodeChar
    split_ifs with h₁ h₂ h₃ h₄ hline h₅ h₆ hlow
    · decide
    · decide
    · decide
    · decide
    · decide
    · decide
    · decide
    · simp [Ne.symm (hhex c.toNat hlow).1, Ne.symm (hhex c.toNat hlow).2]
    · simpa using Ne.symm hline
  refine ⟨⟨'"', _, rfl, by decide, by decide⟩, fun hmem => ?_⟩
  rcases List.mem_append.1 hmem with hmem | hmem
  · rcases List.mem_cons.1 hmem with hmem | hmem
    · exact absurd hmem (by decide)
    · obtain ⟨c, _, hc⟩ := List.mem_flatMap.1 hmem
      exact hencode c hc
  · exact absurd hmem (by decide)

theorem inline_number (n : Float) : Inline (Number.dataFile.writeShort n).toList := by
  rcases Number.writeShort_cases n with hnull | ⟨sign, digits, htext, hsign, hdecimal⟩
  · exact inline_word ⟨'n', _, hnull, by decide, by rw [hnull]; decide⟩
  · have hdigits : ∀ {ds : List Char}, Printing.Digits ds → '\n' ∉ ds := fun hds hmem =>
      Bool.false_ne_true (hds.2 '\n' hmem)
    have hline : '\n' ∉ digits := by
      obtain ⟨whole, fraction, exponent, rfl, hwhole, hfraction, hexponent⟩ := hdecimal
      have hplaces : '\n' ∉ fraction := by
        rcases hfraction with rfl | ⟨ds, rfl, hds⟩
        · exact List.not_mem_nil
        · exact fun hmem => hdigits hds ((List.mem_cons.1 hmem).resolve_left (by decide))
      have hpower : '\n' ∉ exponent := by
        rcases hexponent with rfl | ⟨sign, ds, rfl, hsign, hds⟩
        · exact List.not_mem_nil
        · have hplain : ∀ s ∈ [[], ['+'], ['-']], '\n' ∉ 'e' :: s := by decide
          intro hmem
          rw [← List.cons_append] at hmem
          exact (List.mem_append.1 hmem).elim (hplain sign hsign) (hdigits hds)
      simp only [List.mem_append, not_or]
      exact ⟨hdigits hwhole, hplaces, hpower⟩
    obtain ⟨first, rest, rfl, hfirst, _⟩ := hdecimal.exists_cons
    rw [htext]
    rcases hsign with rfl | rfl
    · refine inline_word ⟨first, rest, rfl, fun hmem => ?_, hline⟩
      have hnone : ∀ c ∈ ['=', '/'], c.isDigit = false := by decide
      rw [hnone first hmem] at hfirst
      cases hfirst
    · exact inline_word ⟨'-', _, rfl, by decide, fun hmem => hline ((List.mem_cons.1 hmem).resolve_left (by decide))⟩

theorem not_mem_intercalate {c : Char} {items : List (List Char)} (hc : c ≠ ',') (h : ∀ item ∈ items, c ∉ item) :
    c ∉ [','].intercalate items := by
  induction items with
  | nil => exact List.not_mem_nil
  | cons item items ih =>
    obtain ⟨hitem, hitems⟩ := List.forall_mem_cons.1 h
    cases items with
    | nil => simpa using hitem
    | cons item' items =>
      rw [List.intercalate_cons_cons]
      simp only [List.mem_append, List.mem_singleton, not_or]
      exact ⟨⟨hitem, hc⟩, ih hitems⟩

mutual

theorem inline_source : ∀ v : Value, Inline v.sourceChars
  | .null => inline_word ⟨_, _, rfl, by decide, by decide⟩
  | .bool false => inline_word ⟨_, _, rfl, by decide, by decide⟩
  | .bool true => inline_word ⟨_, _, rfl, by decide, by decide⟩
  | .number n => by
    rw [Value.sourceChars]
    split
    · exact inline_word ⟨_, _, rfl, by decide, by decide⟩
    · split
      · split <;> exact inline_word ⟨_, _, rfl, by decide, by decide⟩
      · rw [Value.toJson]
        split
        · exact inline_number n
        · exact inline_word ⟨_, _, rfl, by decide, by decide⟩
  | .string s => inline_quote s.toList
  | .array items => by
    have hitems := not_mem_intercalate (by decide) (not_mem_items items)
    rw [Value.sourceChars, Json.enclose]
    refine inline_word ⟨_, _, rfl, by decide, ?_⟩
    simpa using hitems

theorem not_mem_items : ∀ vs : List Value, ∀ item ∈ Value.sourceItems vs, '\n' ∉ item
  | [] => List.forall_mem_nil _
  | v :: vs => List.forall_mem_cons.2 ⟨(inline_source v).line, not_mem_items vs⟩

end

end LiveSheet.Eval
