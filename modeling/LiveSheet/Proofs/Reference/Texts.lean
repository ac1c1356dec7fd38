import LiveSheet.Proofs.Expr.Interpolation
import LiveSheet.Proofs.Reference.Lexing

/-! What is found in the tokens of a text is found in the text, the code of its templates included. The induction is
on the length of the text: the code of an interpolation is a text of its own that ends in a brace. -/

namespace LiveSheet.References

open Template (pieces addText)
open Token (Segment Segmented)

/-- What the tokens of a text show is found in it, read up to a limit. -/
def Followed (cs : List Char) : Prop := ∀ {nesting : Nat} {last : Option Token} {p : Position} {ts : Parser.Tokens}
  {cue : Cue} {s : Sight} {braces : List Nat} {limit : Char}, Token.scan nesting last cs p = .ok ts → Sound ts →
    Text.isWord limit = false → Fits cue s cs → .misread ∉ (⟨.code, braces, s⟩ : Reader).findings (cs ++ [limit]) →
      (∃ s', (⟨.code, braces, s⟩ : Reader).after cs = ⟨.code, braces, s'⟩) ∧
        ∀ f, f.Proper → Finds cue ts f → f ∈ (⟨.code, braces, s⟩ : Reader).findings (cs ++ [limit])

variable {s : Sight} {braces : List Nat} {limit : Char} {cs rest : List Char}

theorem skip_blank {p q : Position} (h : Token.skip false cs p = (rest, q))
    (hmis : .misread ∉ (⟨.code, braces, s⟩ : Reader).findings (cs ++ [limit])) :
    ∃ gap, cs = gap ++ rest ∧ Await.Blank gap := by
  induction cs generalizing p s with
  | nil =>
    cases h
    exact ⟨[], rfl, List.forall_mem_nil _⟩
  | cons c cs ih =>
    rw [Token.skip] at h
    split at h
    · cases h
      exact ⟨[], rfl, List.forall_mem_nil _⟩
    · simp only [Bool.false_eq_true, if_false] at h
      split at h
      · next hblank =>
        rw [List.cons_append, Reader.findings_cons, Reader.next_code braces s (not_mem_limits_of_isBlank hblank)] at hmis
        obtain ⟨gap, rfl, hgap⟩ := ih h fun hmem => hmis (List.mem_append_right _ hmem)
        exact ⟨c :: gap, rfl, List.forall_mem_cons.2 ⟨hblank, hgap⟩⟩
      · split at h
        · next hcomment =>
          obtain ⟨rfl, hhead⟩ := hcomment
          obtain ⟨cs', rfl⟩ : ∃ cs', cs = '/' :: cs' := by
            cases cs with
            | nil => cases hhead
            | cons d cs' => exact ⟨cs', by rw [Option.some.inj hhead]⟩
          have hnext : (⟨.code, braces, s⟩ : Reader).next '/' = ⟨.code, braces, .slash⟩ := by
            rw [Reader.next_code braces s (by decide), s.next_mark (by decide) (by decide) (by decide)]
            rfl
          refine absurd ?_ hmis
          rw [List.cons_append, Reader.findings_cons, hnext]
          exact List.mem_append_right _ (by simp [Reader.finds, Sight.settled, Sight.isMisread])
        · cases h
          exact ⟨[], rfl, List.forall_mem_nil _⟩

theorem mem_addText {c : Char} {ps : List Template.Piece} {body : Except SheetError (List Char)} :
    .code body ∈ addText c ps ↔ .code body ∈ ps := by
  unfold addText
  split <;> simp

/-- Characters that lead back to code, on which is found what the code of some pieces shows. -/
structure Leads (r : Reader) (braces : List Nat) (used : List Char) (ps : List Template.Piece) : Prop where
  after : r.after used = ⟨.code, braces, .other⟩
  found : ∀ body us f, .code (.ok body) ∈ ps → Token.tokenize body = .ok us → f.Proper → Finds .other us f →
    f ∈ r.findings used

theorem Leads.behind {r r' : Reader} {front used : List Char} {ps ps' : List Template.Piece}
    (h : Leads r' braces used ps') (hnext : r.after front = r')
    (hfront : ∀ body us f, .code (.ok body) ∈ ps → Token.tokenize body = .ok us → f.Proper → Finds .other us f →
      f ∈ r.findings front ∨ .code (.ok body) ∈ ps') : Leads r braces (front ++ used) ps where
  after := by rw [Reader.after_append, hnext, h.after]
  found body us f hbody hus hproper hf := by
    rw [Reader.findings_append, hnext, List.mem_append]
    exact (hfront body us f hbody hus hproper hf).imp_right fun hbody => h.found body us f hbody hus hproper hf

theorem segments_followed {left : List Char} {body : List Segment} (h : Segmented cs body left)
    (hbodies : ∀ inner, inner.length < cs.length → Followed inner) {dollar : Bool}
    (hdollar : dollar = true → cs.head? ≠ some '\x7b') {column start : Nat}
    (hsound : ∀ inner, .code (.ok inner) ∈ pieces 0 column start (body.flatMap Segment.raw) →
      ∃ us, Token.tokenize inner = .ok us ∧ Sound us)
    (hmis : .misread ∉ (⟨.template false dollar, braces, .other⟩ : Reader).findings (cs ++ [limit])) :
    ∃ used, cs = used ++ left ∧
      Leads ⟨.template false dollar, braces, .other⟩ braces used (pieces 0 column start (body.flatMap Segment.raw)) := by
  induction h generalizing dollar column start with
  | done left =>
    refine ⟨['\x60'], rfl, by simp [Reader.next], fun inner us f hinner => ?_⟩
    rw [List.flatMap_nil, Template.pieces.eq_def] at hinner
    simp at hinner
  | @plain c rest body left htick hslash hopen hbody ih =>
    have hnext : (⟨.template false dollar, braces, .other⟩ : Reader).next c =
        ⟨.template false (c == '$'), braces, .other⟩ := by
      have hbrace : ¬(dollar = true ∧ c = '\x7b') := fun h => hdollar h.1 (by rw [h.2]; rfl)
      simp [Reader.next, htick, hslash, hbrace]
    rw [List.cons_append, Reader.findings_cons, hnext] at hmis
    have hmis := fun hmem => hmis (List.mem_append_right _ hmem)
    -- A dollar before an escaped brace is a misreading, so that the raw text opens no code here either.
    have hraw : c = '$' → (body.flatMap Segment.raw).head? ≠ some '\x7b' := by
      rintro rfl hhead
      rcases (Template.head_raw body).1 hhead with hplain | hescaped
      · exact hopen rfl (hbody.head_of_plain hplain)
      · obtain ⟨rest', rfl⟩ := hbody.of_escaped hescaped
        exact hmis (by simp [Reader.finds])
    have hpieces : pieces 0 column start ((Segment.text (.plain c) :: body).flatMap Segment.raw) =
        addText c (pieces 0 (column + 1) 0 (body.flatMap Segment.raw)) := Template.pieces_plain hslash hraw column start
    simp only [hpieces, mem_addText] at hsound ⊢
    obtain ⟨used, rfl, hleads⟩ := ih (fun inner hinner => hbodies inner (Nat.lt_succ_of_lt hinner))
      (fun h => hopen (by simpa using h)) hsound hmis
    exact ⟨[c] ++ used, rfl, hleads.behind hnext fun _ _ _ hinner _ _ _ => .inr (mem_addText.1 hinner)⟩
  | @escaped c rest body left hbody ih =>
    have hnext : (⟨.template false dollar, braces, .other⟩ : Reader).after ['\\', c] =
        ⟨.template false false, braces, .other⟩ := by
      simp [Reader.next]
    rw [show '\\' :: c :: rest ++ [limit] = ['\\', c] ++ (rest ++ [limit]) from rfl, Reader.findings_append, hnext] at hmis
    obtain ⟨column', hpieces⟩ := Template.pieces_rawEscape c (body.flatMap Segment.raw) column start
    have hpieces : pieces 0 column start ((Segment.text (.escaped c) :: body).flatMap Segment.raw) = _ := hpieces
    simp only [hpieces, mem_addText] at hsound ⊢
    obtain ⟨used, rfl, hleads⟩ := ih (fun inner hinner => hbodies inner (Nat.lt_add_right 2 hinner))
      (fun h => absurd h Bool.false_ne_true) hsound fun hmem => hmis (List.mem_append_right _ hmem)
    exact ⟨['\\', c] ++ used, rfl, hleads.behind hnext fun _ _ _ hinner _ _ _ => .inr (mem_addText.1 hinner)⟩
  | @code inner cs rest body left hcs hinner hbody ih =>
    subst hcs
    have hopen : (⟨.template false dollar, braces, .other⟩ : Reader).after ['$', '\x7b'] = ⟨.code, 0 :: braces, .other⟩ := by
      simp [Reader.next]
    have hsplit : ∀ tail, '$' :: '\x7b' :: (inner ++ '\x7d' :: tail) = ['$', '\x7b'] ++ ((inner ++ ['\x7d']) ++ tail) := by
      simp
    rw [show '$' :: '\x7b' :: (inner ++ '\x7d' :: rest) ++ [limit] =
      '$' :: '\x7b' :: (inner ++ '\x7d' :: (rest ++ [limit])) by simp, hsplit, Reader.findings_append, hopen,
      Reader.findings_append] at hmis
    simp only [List.mem_append, not_or] at hmis
    obtain ⟨-, hmis, hmis'⟩ := hmis
    obtain ⟨column', hpieces⟩ := Template.pieces_rawCode hinner (body.flatMap Segment.raw) column start
    rw [List.flatMap_cons, hpieces] at hsound ⊢
    obtain ⟨us, hus, hsoundInner⟩ := hsound inner List.mem_cons_self
    obtain ⟨⟨s', hafter⟩, hfound⟩ := hbodies inner (by grind) hus hsoundInner (by decide) (.other inner) hmis
    have hclose : (⟨.code, 0 :: braces, .other⟩ : Reader).after (inner ++ ['\x7d']) =
        ⟨.template false false, braces, .other⟩ := by
      rw [Reader.after_append, hafter]
      simp [Reader.next, isQuote, Sight.next_plain s' (c := '\x7d') (by decide)]
    rw [hclose] at hmis'
    obtain ⟨used, rfl, hleads⟩ := ih (fun inner' hlength => hbodies inner' (Nat.lt_trans hlength (by grind)))
      (fun h => absurd h Bool.false_ne_true) (fun inner' hinner' => hsound inner' (List.mem_cons_of_mem _ hinner')) hmis'
    refine ⟨['$', '\x7b'] ++ (inner ++ ['\x7d']) ++ used, by simp, hleads.behind (by rw [Reader.after_append, hopen, hclose]) ?_⟩
    intro inner' us' f hinner' hus' hproper hf
    rcases List.mem_cons.1 hinner' with heq | hinner'
    · cases heq
      cases hus.symm.trans hus'
      rw [Reader.findings_append, hopen]
      exact .inl (List.mem_append_right _ (hfound f hproper hf))
    · exact .inr hinner'

namespace Step

variable {cue : Cue} {c : Char}

theorem template {p q : Position} {x : Token.Lexeme} {ts : Parser.Tokens} (h : Token.readTemplate cs p = .ok x)
    (hbodies : ∀ body, body.length < cs.length → Followed body)
    (hsound : Sound (⟨x.token, q⟩ :: ts))
    (hmis : .misread ∉ (⟨.code, braces, s⟩ : Reader).findings ('\x60' :: cs ++ [limit])) :
    Step cue s braces limit ('\x60' :: cs) x.token x.rest := by
  obtain ⟨y, hy, rfl⟩ := Token.exists_of_map h
  obtain ⟨segments, hsegments⟩ := Token.exists_segmented hy
  have htext : y.text = segments.flatMap Segment.raw :=
    congrArg Token.Stretch.text (Except.ok.inj (hy.symm.trans (hsegments.templateText _)))
  have hopen : (⟨.code, braces, s⟩ : Reader).next '\x60' = ⟨.template false false, braces, .other⟩ := by
    simp [Reader.next, isQuote, s.next_plain (c := '\x60') (by decide)]
  have hcode : ∀ body, .code (.ok body) ∈ pieces 0 1 0 y.text → ∃ us, Token.tokenize body = .ok us ∧ Sound us := by
    intro body hbody
    rw [← String.toList_ofList (l := y.text)] at hbody
    cases hsound with
    | template htokens hsound _ =>
      obtain ⟨us, hus⟩ := htokens body hbody
      exact ⟨us, hus, hsound body us hbody hus⟩
    | other ht _ => exact absurd rfl (ht _)
  rw [List.cons_append, Reader.findings_cons, hopen] at hmis
  obtain ⟨used, rfl, hafter, hfound⟩ := segments_followed hsegments hbodies (fun h => absurd h Bool.false_ne_true)
    (htext ▸ hcode) fun hmem => hmis (List.mem_append_right _ hmem)
  refine ⟨by simp, ⟨'\x60' :: used, .other, rfl, by rw [Reader.after_cons, hopen, hafter], .other _⟩, fun p ts f hproper hf => ?_⟩
  cases hf with
  | hidden h => rcases h with h | h <;> cases h
  | code hbody htokens hf =>
    rw [String.toList_ofList, htext] at hbody
    refine .inl ?_
    rw [List.cons_append, Reader.findings_cons, hopen, List.append_assoc, Reader.findings_append]
    exact List.mem_append_right _ (List.mem_append_left _ (hfound _ _ f hbody htokens hproper hf))
  | later h => exact .inr h

theorem of_single {t : Token} (ht : Token.single? c = some t) (hfits : Fits cue s (c :: rest)) :
    Step cue s braces limit (c :: rest) t rest := by
  unfold Token.single? at ht
  split at ht
  all_goals cases ht
  · exact leftParen hfits
  · exact rightParen hfits
  · exact leftBracket hfits
  · exact rightBracket hfits
  · exact marks trivial rfl [_] rfl (by decide) (by decide)
  · exact marks trivial rfl [_] rfl (by decide) (by decide)
  · exact marks trivial rfl [_] rfl (by decide) (by decide)
  · exact marks trivial rfl [_] rfl (by decide) (by decide)
  · exact marks trivial rfl [_] rfl (by decide) (by decide)
  · exact marks trivial rfl [_] rfl (by decide) (by decide)
  · exact marks trivial rfl [_] rfl (by decide) (by decide)
  · exact slash
  · exact marks trivial rfl [_] rfl (by decide) (by decide)

theorem of_nameStart (hstart : Text.isNameStart c = true)
    (hword : (rest.dropWhile Text.isNamePart).head?.any Text.isNamePart = false →
      (rest.dropWhile Text.isNamePart).head?.any Text.isWord = false)
    (hlimit : Text.isWord limit = false) (hfits : Fits cue s (c :: rest)) :
    Step cue s braces limit (c :: rest) (.ofWord (String.ofList (c :: rest.takeWhile Text.isNamePart)))
      (rest.dropWhile Text.isNamePart) := by
  have hpart : ∀ d ∈ c :: rest.takeWhile Text.isNamePart, Text.isNamePart d = true :=
    List.forall_mem_cons.2 ⟨Text.isNamePart_of_isNameStart hstart, fun d hd => List.all_eq_true.1 List.all_takeWhile d hd⟩
  have hrest := Await.head?_any_dropWhile Text.isNamePart rest
  have hsplit := List.takeWhile_append_dropWhile (p := Text.isNamePart) (l := rest)
  have hstep : Step cue s braces limit (c :: (rest.takeWhile Text.isNamePart ++ rest.dropWhile Text.isNamePart))
      (.ofWord (String.ofList (c :: rest.takeWhile Text.isNamePart))) (rest.dropWhile Text.isNamePart) :=
    word hpart hrest (hword hrest) hlimit (hsplit.symm ▸ hfits)
  rwa [hsplit] at hstep

theorem of_read {p q : Position} {x : Token.Lexeme} {ts : Parser.Tokens} (h : Token.read c rest p = .ok x)
    (hlimit : Text.isWord limit = false) (hbodies : ∀ body, body.length < rest.length → Followed body)
    (hsound : Sound (⟨x.token, q⟩ :: ts))
    (hword : x.rest.head?.any Text.isNamePart = false → x.rest.head?.any Text.isWord = false) (hfits : Fits cue s (c :: rest))
    (hmis : .misread ∉ (⟨.code, braces, s⟩ : Reader).findings (c :: rest ++ [limit])) :
    Step cue s braces limit (c :: rest) x.token x.rest := by
  unfold Token.read at h
  split at h
  · cases h
    exact comparison ⟨trivial, rfl⟩ ⟨trivial, rfl⟩ (by decide)
  · cases h
    exact comparison ⟨trivial, rfl⟩ ⟨trivial, rfl⟩ (by decide)
  · cases h
    exact order ⟨trivial, rfl⟩ ⟨trivial, rfl⟩ (by decide)
  · cases h
    exact order ⟨trivial, rfl⟩ ⟨trivial, rfl⟩ (by decide)
  · exact pair ⟨show Mute .andAnd from trivial, rfl⟩ (by decide) h
  · exact pair ⟨show Mute .orOr from trivial, rfl⟩ (by decide) h
  · split at h
    · next hdigit => exact number (.inr ⟨rfl, hdigit⟩) h
    · cases h
      exact dot hfits
  · exact string (.inl rfl) h hfits hmis
  · exact string (.inr rfl) h hfits hmis
  · exact template h hbodies hsound hmis
  · split at h
    · next t ht =>
      cases h
      exact of_single ht hfits
    · split at h
      · next hdigit => exact number (.inl hdigit) h
      · split at h
        · next hstart =>
          cases h
          exact of_nameStart hstart hword hlimit hfits
        · cases h

end Step

theorem Sound.tail {t : Token} {p : Position} {ts : Parser.Tokens} (ht : t ≠ .eof) (h : Sound (⟨t, p⟩ :: ts)) : Sound ts := by
  cases h with
  | eof => exact absurd rfl ht
  | template _ _ h => exact h
  | other _ h => exact h

theorem followed (cs : List Char) : Followed cs := by
  induction hn : cs.length using Nat.strongRecOn generalizing cs with
  | ind n ih =>
    subst hn
    intro nesting last p ts cue s braces limit h hsound hlimit hfits hmis
    rcases hskip : Token.skip false cs p with ⟨left, q⟩
    obtain ⟨gap, rfl, hgap⟩ := skip_blank hskip hmis
    have hafter : (⟨.code, braces, s⟩ : Reader).after gap = ⟨.code, braces, s.after gap⟩ :=
      Reader.after_code braces s fun c hc => not_mem_limits_of_isBlank (hgap c hc)
    have hfits := hfits.blanks hgap
    rw [List.append_assoc, Reader.findings_append, hafter] at hmis ⊢
    have hmis : .misread ∉ (⟨.code, braces, s.after gap⟩ : Reader).findings (left ++ [limit]) :=
      fun hmem => hmis (List.mem_append_right _ hmem)
    rw [Reader.after_append, hafter]
    suffices hleft : (∃ s', (⟨.code, braces, s.after gap⟩ : Reader).after left = ⟨.code, braces, s'⟩) ∧
        ∀ f, f.Proper → Finds cue ts f → f ∈ (⟨.code, braces, s.after gap⟩ : Reader).findings (left ++ [limit]) from
      ⟨hleft.1, fun f hproper hf => List.mem_append_right _ (hleft.2 f hproper hf)⟩
    cases left with
    | nil =>
      rw [Await.scan_of_skip_nil hskip] at h
      cases h
      refine ⟨⟨_, rfl⟩, fun f _ hf => ?_⟩
      cases hf with
      | hidden h => rcases h with h | h <;> cases h
      | later h => cases h
    | cons c rest =>
      by_cases hc : c = '\n'
      · subst hc
        have hnext : (⟨.code, braces, s.after gap⟩ : Reader).next '\n' = ⟨.code, braces, (s.after gap).next '\n'⟩ :=
          Reader.next_code braces _ (by decide)
        have hsettled : ∀ name bare whole, (s.after gap).next '\n' ≠ .word name bare whole := by
          intro name bare whole
          rw [Sight.next_blank _ (by decide)]
          split
          · simp
          · exact Sight.settled_ne_word _ name bare whole
        have hfits := hfits.blank (by decide)
        rw [Await.scan_of_skip_newline hskip] at h
        rw [List.cons_append, Reader.findings_cons, hnext] at hmis ⊢
        rw [Reader.after_cons, hnext]
        have hmis := fun hmem => hmis (List.mem_append_right _ hmem)
        split at h
        · obtain ⟨ts', hts, rfl⟩ := Token.exists_of_map h
          obtain ⟨hcode, hfound⟩ := ih rest.length (by grind) rest rfl hts (hsound.tail (by decide)) hlimit
            (hfits.newline hsettled) hmis
          refine ⟨hcode, fun f hproper hf => List.mem_append_right _ (hfound f hproper ?_)⟩
          exact Step.found_mute (t := .newline) trivial hf
        · obtain ⟨hcode, hfound⟩ := ih rest.length (by grind) rest rfl h hsound hlimit hfits hmis
          exact ⟨hcode, fun f hproper hf => List.mem_append_right _ (hfound f hproper hf)⟩
      · cases hx : Token.read c rest q with
        | error e =>
          rw [Await.scan_of_skip_error hskip hc hx] at h
          cases h
        | ok x =>
          rw [Await.scan_of_skip_cons hskip hc hx] at h
          obtain ⟨ts', hts, rfl⟩ := Token.exists_of_map h
          have hlength := Token.length_of_read hx
          have hstep : Step cue (s.after gap) braces limit (c :: rest) x.token x.rest :=
            .of_read hx hlimit (fun body hbody => ih body.length (by grind) body rfl) hsound
              (not_isWord_of_scan hts) hfits hmis
          obtain ⟨text, s', htext, hafter', hfits'⟩ := hstep.along
          rw [htext, List.append_assoc, Reader.findings_append, hafter'] at hmis ⊢
          rw [Reader.after_append, hafter']
          obtain ⟨hcode, hfound⟩ := ih x.rest.length (by grind) x.rest rfl hts (hsound.tail hstep.inner) hlimit
            hfits' fun hmem => hmis (List.mem_append_right _ hmem)
          refine ⟨hcode, fun f hproper hf => ?_⟩
          rcases hstep.found _ _ f hproper hf with hf | hf
          · rwa [htext, List.append_assoc, Reader.findings_append, hafter'] at hf
          · exact List.mem_append_right _ (hfound f hproper hf)

theorem parse_mentions {text : String} {p : Program} (h : Program.parse text = .ok p) (hplain : Plain text.toList)
    {n : String} (hn : n ∈ p.reads) (hname : Text.isVariableName n.toList = true) : Mentions text.toList n := by
  obtain ⟨ts, hts, hsound, hreads⟩ := parse_found h
  obtain ⟨_, hfound⟩ := followed text.toList hts hsound (by decide) (.other _) hplain
  exact hfound _ hname (hreads (fun hmis => hplain (hfound .misread trivial hmis)) n hn)

end LiveSheet.References
