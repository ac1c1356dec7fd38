import LiveSheet.Proofs.Reference.Programs

/-! What is found in the tokens of a text is found in the text. A reader goes along with the lexer and stands in
code between two tokens; unless the text misleads it, it has come past what the tokens show. -/

namespace LiveSheet.References

/-- What a reader has come past shows at least what the tokens before show. -/
structure Fits (cue : Cue) (s : Sight) (cs : List Char) : Prop where
  word : ∀ name bare whole, s = .word name bare whole → cue = .number ∨ cs.head?.any Text.isNamePart = false
  key : ∀ name, s ≠ .key name
  dot : s = .dot → cue = .dot
  self : cue = .self → s.settled = .self
  hidden : cue = .hidden → s = .hidden
  selfDot : cue = .selfDot → s = .selfDot
  bracket : cue = .bracket → s = .bracket
  wrapped : cue = .wrapped → s = .wrapped
  keyed : ∀ n, cue = .keyed n → Text.isVariableName n.toList = true → s = .keyed n.toList

namespace Fits

variable {cue : Cue} {s : Sight} {c : Char} {cs gap : List Char}

theorem of_other (hcue : cue = .other ∨ cue = .number) (hword : ∀ name bare whole, s = .word name bare whole →
    cue = .number ∨ cs.head?.any Text.isNamePart = false) (hkey : ∀ name, s ≠ .key name) (hdot : s ≠ .dot) : Fits cue s cs := by
  refine ⟨hword, hkey, fun h => absurd h hdot, ?_, ?_, ?_, ?_, ?_, ?_⟩
  all_goals rcases hcue with rfl | rfl <;> simp

theorem other (cs : List Char) : Fits .other .other cs := of_other (.inl rfl) (by simp) (by simp) (by simp)

theorem slash (cs : List Char) : Fits .other .slash cs := of_other (.inl rfl) (by simp) (by simp) (by simp)

theorem settled (h : Fits cue s cs) (cs' : List Char) : Fits cue s.settled cs' where
  word name bare whole heq := absurd heq (s.settled_ne_word name bare whole)
  key name heq := by
    unfold Sight.settled at heq
    split at heq
    · split at heq <;> cases heq
    · exact h.key name heq
  dot heq := by
    unfold Sight.settled at heq
    split at heq
    · split at heq <;> cases heq
    · exact h.dot heq
  self hcue := by rw [Sight.settled_settled, h.self hcue]
  hidden hcue := by rw [h.hidden hcue]; rfl
  selfDot hcue := by rw [h.selfDot hcue]; rfl
  bracket hcue := by rw [h.bracket hcue]; rfl
  wrapped hcue := by rw [h.wrapped hcue]; rfl
  keyed n hcue hn := by rw [h.keyed n hcue hn]; rfl

theorem blank (h : Fits cue s (c :: cs)) (hc : Text.isBlank c = true) : Fits cue (s.next c) cs := by
  rw [Sight.next_blank s hc]
  have hsettled := h.settled cs
  split
  · next hslash =>
    rw [hslash] at hsettled
    refine ⟨by simp, by simp, by simp, ?_, ?_, ?_, ?_, ?_, ?_⟩
    · exact fun hcue => absurd (hsettled.self hcue) (by simp [Sight.settled])
    · exact fun hcue => absurd (hsettled.hidden hcue) (by simp)
    · exact fun hcue => absurd (hsettled.selfDot hcue) (by simp)
    · exact fun hcue => absurd (hsettled.bracket hcue) (by simp)
    · exact fun hcue => absurd (hsettled.wrapped hcue) (by simp)
    · exact fun n hcue hn => absurd (hsettled.keyed n hcue hn) (by simp)
  · exact hsettled

theorem blanks (hgap : Await.Blank gap) (h : Fits cue s (gap ++ cs)) : Fits cue (s.after gap) cs := by
  induction gap generalizing s with
  | nil => exact h
  | cons c gap ih => exact ih (fun d hd => hgap d (List.mem_cons_of_mem c hd)) (h.blank (hgap c List.mem_cons_self))

theorem newline (h : Fits cue s cs) (hs : ∀ name bare whole, s ≠ .word name bare whole) : Fits (cue.next .newline) s cs := by
  rw [Cue.next]
  split
  · next hcue => exact hcue ▸ h
  · exact of_other (.inl rfl) (fun name bare whole heq => absurd heq (hs name bare whole)) h.key
      fun hdot => absurd (h.dot hdot) ‹_›

end Fits

/-- The findings that are about names variables can have. -/
def Finding.Proper : Finding → Prop
  | .name cs => Text.isVariableName cs = true
  | .misread => True

/-- Reading one token: the reader goes along, and finds what the token shows. `limit` stands behind the text. -/
structure Step (cue : Cue) (s : Sight) (braces : List Nat) (limit : Char) (cs : List Char) (t : Token)
    (rest : List Char) : Prop where
  inner : t ≠ .eof
  along : ∃ text s', cs = text ++ rest ∧ (⟨.code, braces, s⟩ : Reader).after text = ⟨.code, braces, s'⟩ ∧
    Fits (cue.next t) s' rest
  found : ∀ p ts f, f.Proper → Finds cue (⟨t, p⟩ :: ts) f →
    f ∈ (⟨.code, braces, s⟩ : Reader).findings (cs ++ [limit]) ∨ Finds (cue.next t) ts f

namespace Step

variable {cue : Cue} {s : Sight} {braces : List Nat} {limit c : Char} {cs rest : List Char} {t : Token}

/-- Tokens that show nothing by themselves. -/
def Mute : Token → Prop
  | .identifier _ | .template _ | .string _ | .dot | .leftBracket | .rightBracket | .eof => False
  | _ => True

theorem found_mute (ht : Mute t) {p : Position} {ts : Parser.Tokens} {f : Finding} (hf : Finds cue (⟨t, p⟩ :: ts) f) :
    Finds (cue.next t) ts f := by
  cases hf with
  | name => cases ht
  | key => cases ht
  | hidden h => rcases h with rfl | rfl <;> cases ht
  | wrapped => cases ht
  | code => cases ht
  | later h => exact h

theorem mute (ht : Mute t) (text : List Char) {s' : Sight} (hcs : cs = text ++ rest)
    (hafter : (⟨.code, braces, s⟩ : Reader).after text = ⟨.code, braces, s'⟩) (hfits : Fits (cue.next t) s' rest) :
    Step cue s braces limit cs t rest := by
  refine ⟨?_, ⟨text, s', hcs, hafter, hfits⟩, fun _ _ _ _ hf => .inr (found_mute ht hf)⟩
  rintro rfl
  exact ht

theorem marks (ht : Mute t) (hnext : cue.next t = .other) (text : List Char) (hcs : cs = text ++ rest)
    (htext : ∀ c ∈ text, c ∈ "=!<>&|+-*%,;?:".toList) (hne : text ≠ []) : Step cue s braces limit cs t rest := by
  have hlimits : ∀ c ∈ "=!<>&|+-*%,;?:".toList, c ∉ limits ∧ c ∈ "=!<>&|+-*%,;?:]\x60\x7b\x7d".toList := by decide
  have hother : s.after text = .other := by
    obtain ⟨xs, c, rfl⟩ := List.eq_nil_or_concat text |>.resolve_left hne
    rw [List.concat_eq_append, Sight.after_append]
    exact Sight.next_plain _ (hlimits c (htext c (by simp))).2
  refine mute ht text hcs (Reader.after_code braces s fun c hc => (hlimits c (htext c hc)).1) ?_
  rw [hother, hnext]
  exact .other rest

theorem comparison {alone compared : Token} {p : Position} (halone : Mute alone ∧ cue.next alone = .other)
    (hcompared : Mute compared ∧ cue.next compared = .other) (hc : c ∈ "=!<>&|+-*%,;?:".toList) :
    Step cue s braces limit (c :: cs) (Token.readComparison alone compared cs p).token
      (Token.readComparison alone compared cs p).rest := by
  unfold Token.readComparison
  split
  · next left => exact marks hcompared.1 hcompared.2 [c, '=', '='] rfl (by simpa using hc) (by simp)
  · next left => exact marks hcompared.1 hcompared.2 [c, '='] rfl (by simpa using hc) (by simp)
  · exact marks halone.1 halone.2 [c] rfl (by simpa using hc) (by simp)

theorem order {strict weak : Token} {p : Position} (hstrict : Mute strict ∧ cue.next strict = .other)
    (hweak : Mute weak ∧ cue.next weak = .other) (hc : c ∈ "=!<>&|+-*%,;?:".toList) :
    Step cue s braces limit (c :: cs) (Token.readOrder strict weak cs p).token (Token.readOrder strict weak cs p).rest := by
  unfold Token.readOrder
  split
  · next left => exact marks hweak.1 hweak.2 [c, '='] rfl (by simpa using hc) (by simp)
  · exact marks hstrict.1 hstrict.2 [c] rfl (by simpa using hc) (by simp)

theorem pair {both : Token} {p : Position} {x : Token.Lexeme} (hboth : Mute both ∧ cue.next both = .other)
    (hc : c ∈ "=!<>&|+-*%,;?:".toList) (h : Token.readPair c both cs p = .ok x) :
    Step cue s braces limit (c :: cs) x.token x.rest := by
  unfold Token.readPair at h
  split at h
  · split at h
    · next hd =>
      cases h
      subst hd
      exact marks hboth.1 hboth.2 [_, _] rfl (by simpa using hc) (by simp)
    · cases h
  · cases h

theorem single (hc : c ∈ "./[]()".toList) (ht : t ≠ .eof) (hfits : Fits (cue.next t) (s.settled.mark c) rest)
    (hfound : ∀ p ts f, f.Proper → Finds cue (⟨t, p⟩ :: ts) f →
      f ∈ (⟨.code, braces, s⟩ : Reader).finds c ∨ Finds (cue.next t) ts f) :
    Step cue s braces limit (c :: rest) t rest := by
  have hclass : ∀ d ∈ "./[]()".toList, Text.isWord d = false ∧ Text.isNamePart d = false ∧ Text.isBlank d = false ∧
      d ∉ limits := by decide
  obtain ⟨hword, hname, hblank, hlimits⟩ := hclass c hc
  refine ⟨ht, ⟨[c], _, rfl, Reader.next_code braces s hlimits, ?_⟩, fun p ts f hproper hf => ?_⟩
  · rwa [Sight.next_mark s hword hname hblank]
  · rw [List.cons_append, Reader.findings_cons]
    exact (hfound p ts f hproper hf).imp_left (List.mem_append_left _)

section

variable (hfits : Fits cue s cs)

include hfits

theorem dot : Step cue s braces limit ('.' :: rest) .dot rest := by
  refine single (by decide) (by simp) ?_ fun p ts f _ hf => ?_
  · rw [Cue.next, Sight.mark]
    split
    · next hcue =>
      rw [if_pos (hfits.self hcue)]
      constructor <;> simp
    · split <;> constructor <;> simp
  · cases hf with
    | hidden h => exact .inl (by simp [Reader.finds, hfits.hidden rfl, Sight.settled, Sight.isMisread])
    | later h => exact .inr h

theorem leftBracket : Step cue s braces limit ('[' :: rest) .leftBracket rest := by
  refine single (by decide) (by simp) ?_ fun p ts f _ hf => ?_
  · rw [Cue.next, Sight.mark]
    split
    · next hcue =>
      rw [if_pos (hfits.self hcue)]
      constructor <;> simp
    · split <;> exact .of_other (.inl rfl) (by simp) (by simp) (by simp)
  · cases hf with
    | hidden h => exact .inl (by simp [Reader.finds, hfits.hidden rfl, Sight.settled, Sight.isMisread])
    | later h => exact .inr h

theorem rightBracket : Step cue s braces limit (']' :: rest) .rightBracket rest := by
  refine single (by decide) (by simp) (.other rest) fun p ts f hproper hf => ?_
  cases hf with
  | key =>
    have hname : Text.isVariableName _ = true := hproper
    exact .inl (by simp [Reader.finds, hfits.keyed _ rfl hname, Sight.ended?, hname])
  | hidden h => rcases h with h | h <;> cases h
  | later h => exact .inr h

theorem leftParen : Step cue s braces limit ('(' :: rest) .leftParen rest := by
  refine single (by decide) (by simp) ?_ fun p ts f _ hf => .inr (found_mute (t := .leftParen) trivial hf)
  rw [Cue.next, Sight.mark]
  split
  · next hcue =>
    have hwrapped : s.settled = .bracket ∨ s.settled = .wrapped := by
      refine hcue.imp (fun h => ?_) (fun h => ?_)
      · rw [hfits.bracket h]; rfl
      · rw [hfits.wrapped h]; rfl
    rw [if_pos hwrapped]
    constructor <;> simp
  · split <;> exact .of_other (.inl rfl) (by simp) (by simp) (by simp)

theorem rightParen : Step cue s braces limit (')' :: rest) .rightParen rest := by
  refine single (by decide) (by simp) ?_ fun p ts f _ hf => .inr (found_mute (t := .rightParen) trivial hf)
  rw [Cue.next, Sight.mark]
  split
  · next hcue =>
    have hhidden : s.settled = .self ∨ s.settled = .hidden := by
      refine hcue.imp hfits.self fun h => ?_
      rw [hfits.hidden h]
      rfl
    rw [if_pos hhidden]
    constructor <;> simp
  · split <;> exact .of_other (.inl rfl) (by simp) (by simp) (by simp)

end

theorem slash : Step cue s braces limit ('/' :: rest) .slash rest :=
  single (by decide) (by simp) (.slash rest) fun _ _ _ _ hf => .inr (found_mute (t := .slash) trivial hf)

theorem number {p : Position} {x : Token.Lexeme} (hc : c.isDigit = true ∨ c = '.' ∧ cs.head?.any Char.isDigit = true)
    (h : Token.readNumber c cs p = .ok x) : Step cue s braces limit (c :: cs) x.token x.rest := by
  rw [Token.readNumber] at h
  rcases hx : Token.numberText (c == '.') false cs with ⟨text, left⟩
  simp only [hx] at h
  split at h
  · cases h
    obtain ⟨used, rfl, hused, hlast, hnone⟩ := Token.number_used hx
    have hdigit : Text.isNamePart c = true ∨ c ∈ ['.', '+', '-'] := by
      rcases hc with hc | ⟨rfl, _⟩
      · exact .inl (Text.isNamePart_of_isDigit hc)
      · exact .inr (by decide)
    have hall : ∀ d ∈ c :: used, Text.isNamePart d = true ∨ d ∈ ['.', '+', '-'] := List.forall_mem_cons.2 ⟨hdigit, hused⟩
    have hend : (c :: used).getLast (List.cons_ne_nil c used) ≠ '.' := by
      cases used with
      | nil =>
        rintro rfl
        rw [List.nil_append, hnone rfl] at hc
        exact absurd hc (by decide)
      | cons d used =>
        rw [List.getLast_cons (List.cons_ne_nil d used)]
        simpa [List.getLast?_eq_some_getLast] using hlast
    have hafter : ∀ s : Sight, (∃ name bare whole, s.after (c :: used) = .word name bare whole) ∨ s.after (c :: used) = .other := by
      intro s
      rw [← List.dropLast_concat_getLast (List.cons_ne_nil c used), Sight.after_append]
      rcases hall _ (List.getLast_mem (List.cons_ne_nil c used)) with hpart | hmark
      · exact .inl (Sight.next_namePart _ hpart)
      · refine .inr (Sight.next_plain _ ?_)
        have hmarks : ∀ d ∈ ['.', '+', '-'], d ≠ '.' → d ∈ "=!<>&|+-*%,;?:]\x60\x7b\x7d".toList := by decide
        exact hmarks _ hmark hend
    have hlimits : ∀ d ∈ c :: used, d ∉ limits := by
      intro d hd
      rcases hall d hd with hpart | hmark
      · exact not_mem_limits_of_isNamePart hpart
      · have hmarks : ∀ d ∈ ['.', '+', '-'], d ∉ limits := by decide
        exact hmarks d hmark
    refine mute trivial (c :: used) rfl (Reader.after_code braces s hlimits) ?_
    rcases hafter s with ⟨name, bare, whole, heq⟩ | heq
    · exact heq ▸ .of_other (.inr rfl) (fun _ _ _ _ => .inl rfl) (by simp) (by simp)
    · exact heq ▸ .of_other (.inr rfl) (by simp) (by simp) (by simp)
  · cases h

theorem stringText_after (braces : List Nat) {quote : Char} {p : Position} {x : Token.Stretch} (hquote : quote ≠ '\\')
    (h : Token.stringText quote cs p = .ok x) : ∃ used, cs = used ++ x.rest ∧ ∀ s : Sight, ∃ s',
      (⟨.quoted quote false, braces, s⟩ : Reader).after used = ⟨.code, braces, s'⟩ ∧
      (s' = .other ∨ ∃ name, s' = .keyed name) ∧
      ∀ name, s = .key name → .misread ∉ (⟨.quoted quote false, braces, s⟩ : Reader).findings used →
        (∀ c ∈ x.text, Text.isVariablePart c = true) → s' = .keyed (name ++ x.text) := by
  have hkeyed : ∀ s : Sight, s.nextQuoted quote quote = .other ∨ ∃ name, s.nextQuoted quote quote = .keyed name := by
    intro s
    unfold Sight.nextQuoted
    split
    · exact .inr ⟨_, if_pos rfl⟩
    · exact .inl rfl
  fun_induction Token.stringText quote cs p generalizing x with
  | case1 => cases h
  | case2 => cases h
  | case3 rest p =>
    cases h
    refine ⟨[quote], rfl, fun s => ⟨s.nextQuoted quote quote, ?_, hkeyed s, ?_⟩⟩
    · simp [Reader.next, hquote]
    · rintro name rfl - -
      simp [Sight.nextQuoted]
  | case4 => cases h
  | case5 p e rest hline hclose ih =>
    obtain ⟨y, hy, rfl⟩ := Token.exists_of_map h
    obtain ⟨used, rfl, hused⟩ := ih hy
    refine ⟨'\\' :: e :: used, rfl, fun s => ?_⟩
    obtain ⟨s', hafter, hends, _⟩ := hused .other
    refine ⟨s', ?_, hends, ?_⟩
    · simpa [Reader.next] using hafter
    · rintro name rfl hmis -
      exact absurd (by simp [Reader.finds, Sight.isMisread]) hmis
  | case6 c rest p hline hclose hslash ih =>
    obtain ⟨y, hy, rfl⟩ := Token.exists_of_map h
    obtain ⟨used, rfl, hused⟩ := ih hy
    have hnext : ∀ s : Sight, (⟨.quoted quote false, braces, s⟩ : Reader).next c =
        ⟨.quoted quote false, braces, s.nextQuoted quote c⟩ := by
      intro s
      simp [Reader.next, hslash, hclose]
    refine ⟨c :: used, rfl, fun s => ?_⟩
    obtain ⟨s', hafter, hends, hkey⟩ := hused (s.nextQuoted quote c)
    refine ⟨s', ?_, hends, ?_⟩
    · rw [Reader.after_cons, hnext, hafter]
    · rintro name rfl hmis htext
      obtain ⟨hc, htext⟩ := List.forall_mem_cons.1 htext
      rw [Reader.findings_cons, hnext] at hmis
      have hsight : (Sight.key name).nextQuoted quote c = .key (name ++ [c]) := by
        simp [Sight.nextQuoted, hclose, hc]
      rw [hkey _ hsight (fun hmem => hmis (List.mem_append_right _ hmem)) htext, List.append_assoc]

theorem string {p : Position} {x : Token.Lexeme} (hc : c = '"' ∨ c = '\'') (h : Token.readString c cs p = .ok x)
    (hfits : Fits cue s (c :: cs)) (hmis : .misread ∉ (⟨.code, braces, s⟩ : Reader).findings (c :: cs ++ [limit])) :
    Step cue s braces limit (c :: cs) x.token x.rest := by
  obtain ⟨y, hy, rfl⟩ := Token.exists_of_map h
  have hslash : c ≠ '\\' := by
    rcases hc with rfl | rfl <;> decide
  have hopen : (⟨.code, braces, s⟩ : Reader).next c =
      ⟨.quoted c false, braces, if s.settled = .bracket then .key [] else .other⟩ := by
    have hquote : isQuote c = true := by simpa [isQuote] using hc
    simp [Reader.next, hquote, s.next_quote hquote]
  obtain ⟨used, rfl, hused⟩ := stringText_after braces hslash hy
  obtain ⟨s', hafter, hends, hkey⟩ := hused (if s.settled = .bracket then .key [] else .other)
  refine ⟨by simp, ⟨c :: used, s', rfl, by rw [Reader.after_cons, hopen, hafter], ?_⟩, fun p ts f _ hf => ?_⟩
  · rw [Cue.next]
    split
    · next hcue =>
      rw [if_pos (by rw [hfits.bracket hcue]; rfl)] at hkey
      have hword : ∀ name bare whole, s' ≠ .word name bare whole := by
        rcases hends with rfl | ⟨_, rfl⟩ <;> simp
      have hname : ∀ name, s' ≠ .key name := by
        rcases hends with rfl | ⟨_, rfl⟩ <;> simp
      have hdot : s' ≠ .dot := by
        rcases hends with rfl | ⟨_, rfl⟩ <;> simp
      refine ⟨fun name bare whole heq => absurd heq (hword name bare whole), hname, fun heq => absurd heq hdot,
        (by simp), by simp, by simp, by simp, by simp, fun n hn hvariable => ?_⟩
      cases hn
      rw [String.toList_ofList] at hvariable ⊢
      refine hkey [] rfl (fun hmem => hmis ?_) (Text.isVariablePart_of_isVariableName hvariable)
      rw [List.cons_append, Reader.findings_cons, hopen, hfits.bracket hcue, List.append_assoc, Reader.findings_append]
      exact List.mem_append_right _ (List.mem_append_left _ hmem)
    · rcases hends with rfl | ⟨_, rfl⟩ <;> exact .of_other (.inl rfl) (by simp) (by simp) (by simp)
  · cases hf with
    | hidden h => rcases h with h | h <;> cases h
    | wrapped =>
      refine .inl ?_
      rw [List.cons_append, Reader.findings_cons, hfits.wrapped rfl]
      refine List.mem_append_left _ ?_
      rcases hc with rfl | rfl <;> simp [Reader.finds, Sight.settled, Sight.isMisread, isQuote]
    | later h => exact .inr h

theorem ofWord_cases (w : String) : Token.ofWord w = .identifier w ∨ Token.ofWord w = .thisWord ∧ w = "this" ∨
    Mute (Token.ofWord w) ∧ ∀ cue : Cue, cue.next (Token.ofWord w) = .other := by
  unfold Token.ofWord
  split
  · exact .inr (.inr ⟨trivial, fun _ => rfl⟩)
  · split
    · exact .inr (.inr ⟨trivial, fun _ => rfl⟩)
    · split
      · exact .inr (.inr ⟨trivial, fun _ => rfl⟩)
      · split
        · exact .inr (.inl ⟨rfl, ‹_›⟩)
        · split
          · exact .inr (.inr ⟨trivial, fun _ => rfl⟩)
          · split
            · exact .inr (.inr ⟨trivial, fun _ => rfl⟩)
            · exact .inl rfl

theorem word {part : List Char} (hpart : ∀ d ∈ c :: part, Text.isNamePart d = true)
    (hrest : rest.head?.any Text.isNamePart = false) (hword : rest.head?.any Text.isWord = false)
    (hlimit : Text.isWord limit = false) (hfits : Fits cue s (c :: (part ++ rest))) :
    Step cue s braces limit (c :: (part ++ rest)) (.ofWord (String.ofList (c :: part))) rest := by
  have hafter : (⟨.code, braces, s⟩ : Reader).after (c :: part) = ⟨.code, braces, s.after (c :: part)⟩ :=
    Reader.after_code braces s fun d hd => not_mem_limits_of_isNamePart (hpart d hd)
  have hends : ∀ name bare whole, s.after (c :: part) = .word name bare whole →
      Cue.other = Cue.number ∨ rest.head?.any Text.isNamePart = false := fun _ _ _ _ => .inr hrest
  obtain ⟨name, bare, whole, hs'⟩ := Sight.after_namePart (s := s) hpart (List.cons_ne_nil c part)
  have hother : Fits .other (s.after (c :: part)) rest := .of_other (.inl rfl) hends (by rw [hs']; simp) (by rw [hs']; simp)
  have hfree : cue ≠ .number → ∀ name bare whole, s ≠ .word name bare whole := by
    intro hcue name bare whole heq
    have hhead := (hfits.word name bare whole heq).resolve_left hcue
    rw [List.head?_cons, Option.any_some, hpart c List.mem_cons_self] at hhead
    cases hhead
  rcases ofWord_cases (String.ofList (c :: part)) with htoken | ⟨htoken, hthis⟩ | ⟨hmute, hnext⟩
  · rw [htoken]
    refine ⟨by simp, ⟨c :: part, _, rfl, hafter, hother⟩, fun p ts f hproper hf => ?_⟩
    cases hf with
    | name hcue =>
      rw [String.toList_ofList] at hproper ⊢
      have hall : ∀ d ∈ c :: part, Text.isWord d = true := by
        exact fun d hd => Text.isWord_of_isVariablePart (Text.isVariablePart_of_isVariableName hproper d hd)
      have hsight := Sight.after_whole hall (List.cons_ne_nil c part) (hfree hcue.2)
      have hdot : s ≠ .dot := fun hdot => hcue.1 (hfits.dot hdot)
      rw [decide_eq_true hdot] at hsight
      refine .inl ?_
      rw [← List.cons_append, List.append_assoc, Reader.findings_append, hafter, hsight]
      refine List.mem_append_right _ ?_
      have hname : Text.isVariableName (c :: part) = true := hproper
      cases rest with
      | nil => simp [Reader.finds, Sight.ended?, hlimit, hname]
      | cons d rest =>
        have hd : Text.isWord d = false := by simpa using hword
        simp [Reader.finds, Sight.ended?, hd, hname]
    | hidden h => rcases h with h | h <;> cases h
    | later h => exact .inr h
  · rw [htoken]
    refine mute trivial (c :: part) rfl hafter ?_
    have hchars : c :: part = "this".toList := by rw [← hthis, String.toList_ofList]
    rw [Cue.next]
    split
    · exact hother
    · next hcue =>
      have hsight : s.after (c :: part) = .word "this".toList (decide (s ≠ .dot)) true := by
        rw [hchars]
        exact Sight.after_whole (by decide) (by decide) (hfree hcue)
      rw [hsight]
      constructor <;> simp [hrest, Sight.settled]
  · exact mute hmute (c :: part) rfl hafter (by rw [hnext]; exact hother)

end Step

theorem not_isWord_of_scan {nesting : Nat} {last : Option Token} {cs : List Char} {p : Position} {ts : Parser.Tokens}
    (h : Token.scan nesting last cs p = .ok ts) (hcs : cs.head?.any Text.isNamePart = false) :
    cs.head?.any Text.isWord = false := by
  cases cs with
  | nil => rfl
  | cons c rest =>
    have hname : Text.isNamePart c = false := by simpa using hcs
    refine Bool.eq_false_iff.2 fun hword => ?_
    have hword : Text.isWord c = true := by simpa using hword
    have hmarks : ∀ d ∈ "\n/=!<>&|.\"'\x60()[],;?:+-*%".toList, c ≠ d := by
      have hnot : ∀ d ∈ "\n/=!<>&|.\"'\x60()[],;?:+-*%".toList, Text.isWord d = false := by decide
      rintro d hd rfl
      rw [hnot c hd] at hword
      cases hword
    have hblank : Text.isBlank c = false := by
      refine Bool.eq_false_iff.2 fun hblank => ?_
      rw [Text.not_isWord_of_isBlank hblank] at hword
      cases hword
    have hskip : Token.skip false (c :: rest) p = (c :: rest, p) := by
      rw [Token.skip, if_neg (hmarks '\n' (by decide))]
      simp [hblank, hmarks '/' (by decide)]
    have hsingle : Token.single? c = none := by
      unfold Token.single?
      split
      case h_14 => rfl
      all_goals exact absurd rfl (hmarks _ (by decide))
    have hdigit : c.isDigit = false := by
      refine Bool.eq_false_iff.2 fun hdigit => ?_
      rw [Text.isNamePart_of_isDigit hdigit] at hname
      cases hname
    have hstart : Text.isNameStart c = false := by
      refine Bool.eq_false_iff.2 fun hstart => ?_
      rw [Text.isNamePart_of_isNameStart hstart] at hname
      cases hname
    have hread : Token.read c rest p = Token.fail (p.right 1) (.strayCharacter c) := by
      unfold Token.read
      split
      case h_11 => simp only [hsingle, hdigit, hstart, Bool.false_eq_true, if_false]
      all_goals exact absurd rfl (hmarks _ (by decide))
    rw [Await.scan_of_skip_error hskip (hmarks '\n' (by decide)) hread] at h
    cases h

end LiveSheet.References
