import LiveSheet.Proofs.Await.Templates
import LiveSheet.Proofs.Reference.Descent

/-! The names that a program reads are found in the tokens of its text, those in the code of templates too. -/

namespace LiveSheet.References

variable {template : String → Except SheetError (List (Part Expr))} {ts r : Parser.Tokens}

/-- Up to the end of the tokens, the code of every template can be read as tokens. -/
inductive Sound : Parser.Tokens → Prop where
  | nil : Sound []
  | eof {p ts} : Sound (⟨.eof, p⟩ :: ts)
  | template {raw p ts} (hbody : ∀ body, .code (.ok body) ∈ Template.pieces 0 1 0 raw.toList →
      ∃ us, Token.tokenize body = .ok us)
    (hsound : ∀ body us, .code (.ok body) ∈ Template.pieces 0 1 0 raw.toList → Token.tokenize body = .ok us → Sound us)
    (h : Sound ts) : Sound (⟨.template raw, p⟩ :: ts)
  | other {t p ts} (ht : ∀ raw, t ≠ .template raw) (h : Sound ts) : Sound (⟨t, p⟩ :: ts)

/-- The tokens of a code, and that what is read in them is found in them. -/
def CodeFound (body : List Char) (e : Expr) : Prop := ∃ us, Token.tokenize body = .ok us ∧ Sound us ∧
  (¬Finds .other us .misread → ∀ n ∈ e.reads, Finds .other us (.name n.toList))

theorem Path.sound (hcode : ∀ raw parts, template raw = .ok parts → ∀ body,
      .code (.ok body) ∈ Template.pieces 0 1 0 raw.toList → ∃ e, CodeFound body e)
    {cue cue' : Cue} (h : Path template cue ts cue' r) (hr : Sound r) : Sound ts := by
  induction h with
  | refl => exact hr
  | @token _ t p ts _ _ ht _ ih =>
    by_cases hraw : ∃ raw, t = .template raw
    · obtain ⟨raw, rfl⟩ := hraw
      obtain ⟨parts, hparts⟩ := ht raw rfl
      refine .template (fun body hbody => ?_) (fun body us hbody hus => ?_) (ih hr)
      · obtain ⟨e, us, hus, _⟩ := hcode raw parts hparts body hbody
        exact ⟨us, hus⟩
      · obtain ⟨e, us', hus', hsound, _⟩ := hcode raw parts hparts body hbody
        rw [hus] at hus'
        cases hus'
        exact hsound
    · exact .other (fun raw heq => hraw ⟨raw, heq⟩) (ih hr)

section

variable {parse : List Char → Except SheetError Expr}

theorem parts_code {ps : List Template.Piece} {parts : List (Part Expr)}
    (h : ps.mapM (Template.readPiece parse) = .ok parts) :
    (∀ body, .code (.ok body) ∈ ps → ∃ e, parse body = .ok e) ∧
      ∀ n ∈ Expr.readsParts parts, ∃ body e, .code (.ok body) ∈ ps ∧ parse body = .ok e ∧ n ∈ e.reads := by
  induction ps generalizing parts with
  | nil =>
    cases h
    exact ⟨(fun _ hbody => by cases hbody), fun _ hn => by cases hn⟩
  | cons piece ps ih =>
    rw [List.mapM_cons] at h
    obtain ⟨part, hpart, h⟩ := Parser.bind_eq_ok.1 h
    obtain ⟨parts', hparts, heq⟩ := Parser.bind_eq_ok.1 h
    cases heq
    obtain ⟨hbodies, hreads⟩ := ih hparts
    have hmore : ∀ n ∈ Expr.readsParts parts', ∃ body e, .code (.ok body) ∈ piece :: ps ∧ parse body = .ok e ∧
        n ∈ e.reads := by
      intro n hn
      obtain ⟨body, e, hbody, he, hn⟩ := hreads n hn
      exact ⟨body, e, List.mem_cons_of_mem _ hbody, he, hn⟩
    cases piece with
    | text cs =>
      cases hpart
      refine ⟨fun body hbody => hbodies body ?_, fun n hn => hmore n ?_⟩
      · simpa using hbody
      · rw [Expr.readsParts, Expr.readsPart, List.nil_append] at hn
        exact hn
    | code result =>
      obtain ⟨body, rfl, hpart⟩ := Parser.bind_eq_ok.1 hpart
      obtain ⟨e, he, rfl⟩ := Parser.map_eq_ok.1 hpart
      refine ⟨fun body' hbody => ?_, fun n hn => ?_⟩
      · rcases List.mem_cons.1 hbody with heq | hbody
        · cases heq
          exact ⟨e, he⟩
        · exact hbodies body' hbody
      · rw [Expr.readsParts, Expr.readsPart, List.mem_append] at hn
        rcases hn with hn | hn
        · exact ⟨body, e, List.mem_cons_self, he, hn⟩
        · exact hmore n hn

variable (hparse : ∀ body e, parse body = .ok e → CodeFound body e)

include hparse

theorem templateFound_parts : TemplateFound (Template.parts parse) := by
  intro raw parts hparts cue p ts hsound n hn
  rw [Template.parts_eq] at hparts
  obtain ⟨body, e, hbody, he, hn⟩ := (parts_code hparts).2 n hn
  obtain ⟨us, hus, _, hfinds⟩ := hparse body e he
  exact .code hbody hus (hfinds (fun hmis => hsound (.code hbody hus hmis)) n hn)

theorem code_parts : ∀ raw parts, Template.parts parse raw = .ok parts → ∀ body,
    .code (.ok body) ∈ Template.pieces 0 1 0 raw.toList → ∃ e, CodeFound body e := by
  intro raw parts hparts body hbody
  rw [Template.parts_eq] at hparts
  obtain ⟨e, he⟩ := (parts_code hparts).1 body hbody
  exact ⟨e, hparse body e he⟩

end

theorem codeFound_expressionOf (depth : Nat) : ∀ body e, Parser.expressionOf depth body = .ok e → CodeFound body e := by
  induction depth with
  | zero =>
    intro body e h
    cases h
  | succ depth ih =>
    intro body e h
    obtain ⟨us, hus, honly⟩ := Parser.bind_eq_ok.1 h
    obtain ⟨⟨e', r⟩, he, honly⟩ := Parser.bind_eq_ok.1 honly
    obtain ⟨cue, hpath, _, hreads⟩ := (FoundAt.all (templateFound_parts ih) _).ternary he .other Cue.free_other
    obtain ⟨cue', hpath', _⟩ := Path.skipNewlines (Template.parts (Parser.expressionOf depth)) cue r
    simp only at honly
    split at honly
    · next heq =>
      cases honly
      rw [heq] at hpath'
      exact ⟨us, hus, (hpath.trans hpath').sound (code_parts ih) .eof, hreads⟩
    · exact absurd honly (Parser.fault_ne_ok _ _ _)

theorem statement_found (htemplate : TemplateFound template) {st : Statement} {cue : Cue} (hcue : cue.Free)
    (h : Parser.statement template ts = .ok (st, r)) : ∃ cue', Path template cue ts cue' r ∧ cue' ≠ .dot ∧
      (¬Finds cue ts .misread → ∀ n ∈ st.reads, Finds cue ts (.name n.toList)) := by
  unfold Parser.statement at h
  split at h
  · next p rest =>
    obtain ⟨⟨name, ts₁⟩, hname, h⟩ := Parser.bind_eq_ok.1 h
    obtain ⟨ts₂, hassign, h⟩ := Parser.bind_eq_ok.1 h
    obtain ⟨⟨value, ts₃⟩, hvalue, heq⟩ := Parser.bind_eq_ok.1 h
    cases heq
    obtain ⟨q, rfl⟩ := Parser.nameAfter_eq_ok.1 hname
    obtain ⟨q', rfl⟩ := Parser.expect_eq_ok.1 hassign
    have hpath : Path template cue (⟨.letWord, p⟩ :: ⟨.identifier name, q⟩ :: ⟨.assign, q'⟩ :: ts₂) .other ts₂ :=
      .token (by rintro raw ⟨⟩) (.token (by rintro raw ⟨⟩) (.single (by rintro raw ⟨⟩)))
    obtain ⟨cue', hpath', hcue', hreads⟩ := ((FoundAt.all htemplate _).ternary hvalue).skip Cue.free_other hpath
    exact ⟨cue', hpath', hcue'.1, hreads⟩
  · obtain ⟨⟨e, r'⟩, he, heq⟩ := Parser.map_eq_ok.1 h
    cases heq
    obtain ⟨cue', hpath, hcue', hreads⟩ := (FoundAt.all htemplate _).ternary he cue hcue
    exact ⟨cue', hpath, hcue'.1, hreads⟩

theorem statements_found (htemplate : TemplateFound template) {n : Nat} {p : Program} {cue : Cue} (hcue : cue ≠ .dot)
    (hfree : cue.Free ∨ ∀ t q rest, ts = ⟨t, q⟩ :: rest → Parser.endsStatement t)
    (h : Parser.statements template n ts = .ok p) : ∃ cue' r, Path template cue ts cue' r ∧ Sound r ∧
      (¬Finds cue ts .misread → ∀ n ∈ p.reads, Finds cue ts (.name n.toList)) := by
  induction n generalizing ts p cue with
  | zero => exact absurd h (Parser.fault_ne_ok _ _ _)
  | succ n ih =>
    rcases Parser.statements_eq_ok.1 h with ⟨hend, rfl⟩ | ⟨t, q, rest, rfl, ht, hrest⟩ |
      ⟨t, q, rest, st, r, p', rfl, ht, hst, hends, hrest, rfl⟩
    · refine ⟨cue, ts, .refl _ _, ?_, fun _ _ hn => by cases hn⟩
      rcases hend with rfl | ⟨q, rest, rfl⟩
      · exact .nil
      · exact .eof
    · have hnext : cue.next t = .other ∧ ∀ raw, t ≠ .template raw := by
        rcases ht with rfl | rfl
        · exact ⟨if_neg hcue, by rintro raw ⟨⟩⟩
        · exact ⟨rfl, by rintro raw ⟨⟩⟩
      have hpath : Path template cue (⟨t, q⟩ :: rest) .other rest := hnext.1 ▸ .single hnext.2
      obtain ⟨cue', r, hpath', hr, hreads⟩ := ih (by decide) (.inl Cue.free_other) hrest
      exact ⟨cue', r, hpath.trans hpath', hr, fun hsound n hn =>
        hpath.finds (hreads (fun hmis => hsound (hpath.finds hmis)) n hn)⟩
    · have hfree := hfree.resolve_right fun hends => ht (hends t q rest rfl)
      obtain ⟨cue₁, hpath₁, hcue₁, hreads₁⟩ := statement_found htemplate hfree hst
      obtain ⟨cue₂, r', hpath₂, hr, hreads₂⟩ := ih hcue₁ (.inr hends) hrest
      refine ⟨cue₂, r', hpath₁.trans hpath₂, hr, fun hsound n hn => ?_⟩
      rw [Program.reads, List.flatMap_cons, List.mem_append] at hn
      rcases hn with hn | hn
      · exact hreads₁ hsound n hn
      · exact hpath₁.finds (hreads₂ (fun hmis => hsound (hpath₁.finds hmis)) n hn)

theorem parse_found {text : String} {p : Program} (h : Program.parse text = .ok p) : ∃ ts,
    Token.tokenize text.toList = .ok ts ∧ Sound ts ∧
      (¬Finds .other ts .misread → ∀ n ∈ p.reads, Finds .other ts (.name n.toList)) := by
  obtain ⟨ts, hts, hprogram⟩ := Parser.bind_eq_ok.1 h
  have hparse := codeFound_expressionOf (text.length + 1)
  obtain ⟨cue, r, hpath, hr, hreads⟩ := statements_found (templateFound_parts hparse) (by decide)
    (.inl Cue.free_other) hprogram
  exact ⟨ts, hts, hpath.sound (code_parts hparse) hr, hreads⟩

end LiveSheet.References
