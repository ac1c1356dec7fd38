import LiveSheet.Proofs.Await.Clear
import LiveSheet.Proofs.Await.Lexing

/-! The tokens of a clear text with its calls awaited are those of the text with its calls awaited.
Where the calls of the text stand its tokens have calls, and nowhere else. -/

namespace LiveSheet.Await

open LiveSheet.Parser (Tokens Frame Awaits StartsCall Callee isOther)

/-- However the tokens are placed, the second ones are the first ones with the calls awaited. -/
def Becomes (names : List String) (code : String → String → Prop) (s : List Frame) (as bs : List Token) : Prop :=
  ∀ ts us : Tokens, ts.map (·.token) = as → us.map (·.token) = bs → Awaits names code s ts us

/-- A call of one of the names stands at the start. -/
def Starts (names : List String) (as : List Token) : Prop :=
  (∃ a rest, as = .identifier a :: .leftParen :: rest ∧ a ∈ names) ∨
  ∃ a b rest, as = .identifier a :: .dot :: .identifier b :: .leftParen :: rest ∧ a ++ "." ++ b ∈ names

theorem exists_placed {t : Token} {as : List Token} {ts : Tokens} (h : ts.map (·.token) = t :: as) :
    ∃ p rest, ts = ⟨t, p⟩ :: rest ∧ rest.map (·.token) = as := by
  obtain ⟨⟨_, p⟩, rest, rfl, rfl, hrest⟩ := List.map_eq_cons_iff.1 h
  exact ⟨p, rest, rfl, hrest⟩

theorem starts_of_startsCall {names : List String} {ts : Tokens} (h : StartsCall names ts) :
    Starts names (ts.map (·.token)) := by
  obtain ⟨c, p, rest, hcallee⟩ := h
  cases hcallee with
  | name hmem => exact Or.inl ⟨_, _, rfl, hmem⟩
  | path hmem => exact Or.inr ⟨_, _, _, rfl, hmem⟩

theorem not_starts_of_head {names : List String} {as : List Token} (h : ∀ a rest, as ≠ .identifier a :: rest) :
    ¬Starts names as := by
  rintro (⟨a, rest, rfl, _⟩ | ⟨a, b, rest, rfl, _⟩)
  · exact h _ _ rfl
  · exact h _ _ rfl

def Target.expr : Target → Expr
  | name text _ => .identifier (String.ofList text)
  | path owner _ _ text _ => .member (.identifier (String.ofList owner)) (String.ofList text)

theorem Target.Fits.callee {names : List String} {t : Target} (h : t.Fits names) {as : List Token} {ts : Tokens}
    (hts : ts.map (·.token) = t.tokens ++ .leftParen :: as) :
    ∃ p rest, Callee names t.expr ts (⟨.leftParen, p⟩ :: rest) ∧ rest.map (·.token) = as := by
  cases t with
  | name text gap =>
    obtain ⟨_, ts₁, rfl, h₁⟩ := exists_placed hts
    obtain ⟨p, ts₂, rfl, h₂⟩ := exists_placed h₁
    exact ⟨p, ts₂, .name h.1, h₂⟩
  | path owner gap₁ gap₂ text gap₃ =>
    obtain ⟨_, ts₁, rfl, h₁⟩ := exists_placed hts
    obtain ⟨_, ts₂, rfl, h₂⟩ := exists_placed h₁
    obtain ⟨_, ts₃, rfl, h₃⟩ := exists_placed h₂
    obtain ⟨p, ts₄, rfl, h₄⟩ := exists_placed h₃
    exact ⟨p, ts₄, .path h.1, h₄⟩

namespace Becomes

variable {names : List String} {code : String → String → Prop} {s : List Frame} {as bs : List Token}

theorem nil : Becomes names code [] [] [] := by
  intro ts us hts hus
  rw [List.map_eq_nil_iff.1 hts, List.map_eq_nil_iff.1 hus]
  exact .nil

theorem template {raw raw' : String} (hcode : code raw raw') (h : Becomes names code s as bs) :
    Becomes names code s (.template raw :: as) (.template raw' :: bs) := by
  intro ts us hts hus
  obtain ⟨_, ts, rfl, has⟩ := exists_placed hts
  obtain ⟨_, us, rfl, hbs⟩ := exists_placed hus
  exact .template hcode (h ts us has hbs)

theorem token {t : Token} (ht : isOther t = true) (h : Becomes names code s as bs) :
    Becomes names code s (t :: as) (t :: bs) := by
  intro ts us hts hus
  obtain ⟨_, ts, rfl, has⟩ := exists_placed hts
  obtain ⟨_, us, rfl, hbs⟩ := exists_placed hus
  exact .token ht (h ts us has hbs)

theorem name {a : String} (hcall : ¬Starts names (.identifier a :: as)) (h : Becomes names code s as bs) :
    Becomes names code s (.identifier a :: as) (.identifier a :: bs) := by
  intro ts us hts hus
  obtain ⟨_, ts, rfl, has⟩ := exists_placed hts
  obtain ⟨_, us, rfl, hbs⟩ := exists_placed hus
  exact .name (fun hstarts => hcall (has ▸ starts_of_startsCall hstarts)) (h ts us has hbs)

theorem member {b : String} (h : Becomes names code s as bs) :
    Becomes names code s (.dot :: .identifier b :: as) (.dot :: .identifier b :: bs) := by
  intro ts us hts hus
  obtain ⟨_, ts, rfl, has⟩ := exists_placed hts
  obtain ⟨_, ts, rfl, has₂⟩ := exists_placed has
  obtain ⟨_, us, rfl, hbs⟩ := exists_placed hus
  obtain ⟨_, us, rfl, hbs₂⟩ := exists_placed hbs
  exact .member (h ts us has₂ hbs₂)

theorem dot (hmember : ∀ b rest, as ≠ .identifier b :: rest) (h : Becomes names code s as bs) :
    Becomes names code s (.dot :: as) (.dot :: bs) := by
  intro ts us hts hus
  obtain ⟨_, ts, rfl, has⟩ := exists_placed hts
  obtain ⟨_, us, rfl, hbs⟩ := exists_placed hus
  refine .dot ?_ (h ts us has hbs)
  rintro b q rest rfl
  exact hmember b _ has.symm

theorem await (hcall : ¬Starts names as) (h : Becomes names code s as bs) :
    Becomes names code s (.awaitWord :: as) (.awaitWord :: bs) := by
  intro ts us hts hus
  obtain ⟨_, ts, rfl, has⟩ := exists_placed hts
  obtain ⟨_, us, rfl, hbs⟩ := exists_placed hus
  exact .await (fun hstarts => hcall (has ▸ starts_of_startsCall hstarts)) (h ts us has hbs)

theorem opening (h : Becomes names code (.plain :: s) as bs) :
    Becomes names code s (.leftParen :: as) (.leftParen :: bs) := by
  intro ts us hts hus
  obtain ⟨_, ts, rfl, has⟩ := exists_placed hts
  obtain ⟨_, us, rfl, hbs⟩ := exists_placed hus
  exact .opening (h ts us has hbs)

theorem close (h : Becomes names code s as bs) :
    Becomes names code (.plain :: s) (.rightParen :: as) (.rightParen :: bs) := by
  intro ts us hts hus
  obtain ⟨_, ts, rfl, has⟩ := exists_placed hts
  obtain ⟨_, us, rfl, hbs⟩ := exists_placed hus
  exact .close (h ts us has hbs)

theorem closeWrapped (h : Becomes names code s as bs) :
    Becomes names code (.wrapped :: s) (.rightParen :: as) (.rightParen :: .rightParen :: bs) := by
  intro ts us hts hus
  obtain ⟨_, ts, rfl, has⟩ := exists_placed hts
  obtain ⟨_, us, rfl, hbs⟩ := exists_placed hus
  obtain ⟨_, us, rfl, hbs₂⟩ := exists_placed hbs
  exact .closeWrapped (h ts us has hbs₂)

theorem closeAwaited (hsuffix : ∀ t rest, as = t :: rest → ¬Parser.isSuffix t) (h : Becomes names code s as bs) :
    Becomes names code (.awaited :: s) (.rightParen :: as) (.rightParen :: bs) := by
  intro ts us hts hus
  obtain ⟨_, ts, rfl, has⟩ := exists_placed hts
  obtain ⟨_, us, rfl, hbs⟩ := exists_placed hus
  refine .closeAwaited ?_ (h ts us has hbs)
  rintro t q rest rfl
  exact hsuffix t _ has.symm

theorem call {t : Target} (ht : t.Fits names) (h : Becomes names code (.wrapped :: s) as bs) :
    Becomes names code s (t.tokens ++ .leftParen :: as)
      (.leftParen :: .awaitWord :: (t.tokens ++ .leftParen :: bs)) := by
  intro ts us hts hus
  obtain ⟨_, us, rfl, hbs⟩ := exists_placed hus
  obtain ⟨_, us, rfl, hbs₂⟩ := exists_placed hbs
  obtain ⟨_, rest, hcallee, hrest⟩ := ht.callee hts
  obtain ⟨_, rest', hcallee', hrest'⟩ := ht.callee hbs₂
  exact .call hcallee hcallee' (h rest rest' hrest hrest')

theorem awaitedCall {t : Target} (ht : t.Fits names) (h : Becomes names code (.awaited :: s) as bs) :
    Becomes names code s (.awaitWord :: (t.tokens ++ .leftParen :: as))
      (.awaitWord :: (t.tokens ++ .leftParen :: bs)) := by
  intro ts us hts hus
  obtain ⟨_, ts, rfl, has⟩ := exists_placed hts
  obtain ⟨_, us, rfl, hbs⟩ := exists_placed hus
  obtain ⟨_, rest, hcallee, hrest⟩ := ht.callee has
  obtain ⟨_, rest', hcallee', hrest'⟩ := ht.callee hbs
  exact .awaitedCall hcallee hcallee' (h rest rest' hrest hrest')

theorem gap {nesting nesting' : Nat} (hnesting : nesting = 0 ↔ nesting' = 0) (fresh : Bool) (gap : List Char)
    (h : Becomes names code s as bs) :
    Becomes names code s (gapTokens nesting fresh gap ++ as) (gapTokens nesting' fresh gap ++ bs) := by
  simp only [gapTokens, hnesting]
  split
  · exact token rfl h
  · exact h

end Becomes

/-- The tokens are at the end, or a bracket closes with them. -/
def Closes (as : List Token) : Prop := ∀ t rest, as = t :: rest → t ∈ [.rightParen, .rightBracket, .eof]

theorem gapTokens_cases (nesting : Nat) (fresh : Bool) (gap : List Char) :
    gapTokens nesting fresh gap = [] ∨ gapTokens nesting fresh gap = [.newline] := by
  unfold gapTokens
  split
  · exact Or.inr rfl
  · exact Or.inl rfl

theorem gapTokens_eq_nil {nesting : Nat} {gap : List Char} (h : nesting = 0 → '\n' ∉ gap) (fresh : Bool) :
    gapTokens nesting fresh gap = [] := by
  rw [gapTokens, if_neg]
  rintro ⟨hzero, _, hmem⟩
  exact h hzero hmem

theorem of_gapTokens {nesting : Nat} {fresh : Bool} {gap : List Char} {t : Token} {as rest : List Token}
    (ht : t ≠ .newline) (h : gapTokens nesting fresh gap ++ as = t :: rest) : as = t :: rest := by
  rcases gapTokens_cases nesting fresh gap with hgap | hgap
  · rwa [hgap] at h
  · rw [hgap] at h
    exact absurd (List.cons.inj h).1.symm ht

theorem ofWord_kind (word : String) : Token.ofWord word = .identifier word ∨ Token.ofWord word = .awaitWord ∨
    isOther (Token.ofWord word) = true := by
  unfold Token.ofWord
  repeat (split; · first | exact Or.inr (Or.inl rfl) | exact Or.inr (Or.inr rfl))
  exact Or.inl rfl

theorem Atom.token_cases (a : Atom) : (∃ text, a = .word text ∧ a.token = .identifier (String.ofList text)) ∨
    a = .mark .dot ∨ a.token = .awaitWord ∨ isOther a.token = true := by
  cases a with
  | word text =>
    rcases ofWord_kind (String.ofList text) with h | h | h
    · exact Or.inl ⟨text, rfl, h⟩
    · exact Or.inr (Or.inr (Or.inl h))
    · exact Or.inr (Or.inr (Or.inr h))
  | mark m =>
    cases m
    case dot => exact Or.inr (Or.inl rfl)
    all_goals exact Or.inr (Or.inr (Or.inr rfl))
  | number _ _ _ _ => exact Or.inr (Or.inr (Or.inr rfl))
  | quoted _ _ => exact Or.inr (Or.inr (Or.inr rfl))

namespace Source

variable {names : List String} {nesting : Nat} {fresh : Bool} {as rest : List Token}

theorem head_token {src : Source} {t : Token} (ht : t ≠ .newline) (h : src.tokens nesting fresh ++ as = t :: rest) :
    match src with
    | .done _ => as = t :: rest
    | .leaf _ atom behind =>
      atom.token = t ∧ behind.tokens nesting (decide (atom.token = .semicolon)) ++ as = rest
    | .template .. => ∃ raw, t = .template raw
    | .group _ bracket _ _ => bracket.openingToken = t
    | .call .. => ∃ a, t = .identifier a := by
  cases src with
  | done gap => exact of_gapTokens ht h
  | leaf gap atom behind =>
    simp only [tokens, List.append_assoc] at h
    exact List.cons.inj (of_gapTokens ht h)
  | template gap body behind =>
    simp only [tokens, List.append_assoc] at h
    exact ⟨_, (List.cons.inj (of_gapTokens ht h)).1.symm⟩
  | group gap bracket inner behind =>
    simp only [tokens, List.append_assoc] at h
    exact (List.cons.inj (of_gapTokens ht h)).1
  | call gap target args behind =>
    simp only [tokens, List.append_assoc] at h
    have hhead := of_gapTokens ht h
    cases target <;> exact ⟨_, (List.cons.inj hhead).1.symm⟩

theorem of_leftParen {src : Source} (has : Closes as) (h : src.tokens nesting fresh ++ as = .leftParen :: rest) :
    ∃ gap inner behind, src = .group gap .round inner behind := by
  have hhead := head_token (by simp) h
  cases src with
  | done gap => exact absurd (has _ _ hhead) (by simp)
  | leaf gap atom behind =>
    rcases atom.token_cases with ⟨_, _, htoken⟩ | rfl | htoken | htoken
    · cases hhead.1.symm.trans htoken
    · cases hhead.1
    · cases hhead.1.symm.trans htoken
    · rw [hhead.1] at htoken
      cases htoken
  | template gap body behind =>
    obtain ⟨_, hraw⟩ := hhead
    cases hraw
  | group gap bracket inner behind =>
    cases bracket with
    | round => exact ⟨gap, inner, behind, rfl⟩
    | square => cases hhead
  | call gap target args behind =>
    obtain ⟨_, hname⟩ := hhead
    cases hname

theorem of_dotToken {src : Source} (has : Closes as) (h : src.tokens nesting fresh ++ as = .dot :: rest) :
    ∃ gap behind, src = .leaf gap (.mark .dot) behind ∧ behind.tokens nesting false ++ as = rest := by
  have hhead := head_token (by simp) h
  cases src with
  | done gap => exact absurd (has _ _ hhead) (by simp)
  | leaf gap atom behind =>
    rcases atom.token_cases with ⟨_, _, htoken⟩ | rfl | htoken | htoken
    · cases hhead.1.symm.trans htoken
    · exact ⟨gap, behind, rfl, hhead.2⟩
    · cases hhead.1.symm.trans htoken
    · rw [hhead.1] at htoken
      cases htoken
  | template gap body behind =>
    obtain ⟨_, hraw⟩ := hhead
    cases hraw
  | group gap bracket inner behind => cases bracket <;> cases hhead
  | call gap target args behind =>
    obtain ⟨_, hname⟩ := hhead
    cases hname

theorem of_identifier {src : Source} {name : String} (has : Closes as)
    (h : src.tokens nesting fresh ++ as = .identifier name :: rest) :
    (∃ gap text behind fresh', src = .leaf gap (.word text) behind ∧ name = String.ofList text ∧
      behind.tokens nesting fresh' ++ as = rest) ∨ ∃ gap target args behind, src = .call gap target args behind := by
  have hhead := head_token (by simp) h
  cases src with
  | done gap => exact absurd (has _ _ hhead) (by simp)
  | leaf gap atom behind =>
    rcases atom.token_cases with ⟨text, rfl, htoken⟩ | rfl | htoken | htoken
    · cases hhead.1.symm.trans htoken
      exact Or.inl ⟨gap, text, behind, _, rfl, rfl, hhead.2⟩
    · cases hhead.1
    · cases hhead.1.symm.trans htoken
    · rw [hhead.1] at htoken
      cases htoken
  | template gap body behind =>
    obtain ⟨_, hraw⟩ := hhead
    cases hraw
  | group gap bracket inner behind => cases bracket <;> cases hhead
  | call gap target args behind => exact Or.inr ⟨gap, target, args, behind, rfl⟩

theorem calls_of_starts {src : Source} {lead : Lead} {text : List Char} (fresh : Bool) (has : Closes as)
    (hclear : src.Clear names nesting lead)
    (h : Starts names (.identifier (String.ofList text) :: (src.tokens nesting fresh ++ as))) : src.Calls names text := by
  rcases h with ⟨a, rest, heq, hmem⟩ | ⟨a, b, rest, heq, hmem⟩
  · obtain ⟨hname, hparen⟩ := List.cons.inj heq
    cases hname
    obtain ⟨gap, inner, behind, rfl⟩ := of_leftParen has hparen
    exact .name hmem
  · obtain ⟨hname, hdot⟩ := List.cons.inj heq
    cases hname
    obtain ⟨gap, behind, rfl, hmember⟩ := of_dotToken has hdot
    rcases of_identifier has hmember with ⟨gap₂, member, behind, fresh', rfl, rfl, hparen⟩ |
        ⟨gap₂, target, args, behind, rfl⟩
    · obtain ⟨gap₃, inner, behind, rfl⟩ := of_leftParen has hparen
      exact .member hmem
    · exact absurd rfl hclear.2.2.1

end Source

def Lead.tokens : Lead → List Token
  | .other => []
  | .dot => [.dot]
  | .await => [.awaitWord]

theorem Becomes.lead {names : List String} {code : String → String → Prop} {s : List Frame} {as bs : List Token}
    (lead : Lead) (has : ∀ a rest, as ≠ .identifier a :: rest) (h : Becomes names code s as bs) :
    Becomes names code s (lead.tokens ++ as) (lead.tokens ++ bs) := by
  cases lead with
  | other => exact h
  | dot => exact .dot has h
  | await => exact .await (not_starts_of_head has) h

theorem Becomes.word {names : List String} {code : String → String → Prop} {s : List Frame} {as bs : List Token}
    {lead : Lead} {nesting nesting' : Nat} {gap : List Char} {a : String} (h : Becomes names code s as bs) (fresh : Bool)
    (hnesting : nesting = 0 ↔ nesting' = 0) (hline : lead = .dot → nesting = 0 → '\n' ∉ gap)
    (hcall : lead ≠ .dot → ¬Starts names (.identifier a :: as)) :
    Becomes names code s (lead.tokens ++ (gapTokens nesting fresh gap ++ .identifier a :: as))
      (lead.tokens ++ (gapTokens nesting' fresh gap ++ .identifier a :: bs)) := by
  cases lead with
  | other => exact (h.name (hcall (by simp))).gap hnesting fresh gap
  | dot =>
    rw [gapTokens_eq_nil (hline rfl), gapTokens_eq_nil fun hzero => hline rfl (hnesting.2 hzero)]
    exact .member h
  | await =>
    have hcall := hcall (by simp)
    refine .await ?_ ((h.name hcall).gap hnesting fresh gap)
    rcases gapTokens_cases nesting fresh gap with hgap | hgap
    · rwa [hgap]
    · rw [hgap]
      exact not_starts_of_head fun a rest heq => by cases heq

theorem Lead.after_of_other {t : Token} (h : isOther t = true) : Lead.after t = .other := by
  cases t <;> first | rfl | cases h

theorem gapTokens_succ (nesting : Nat) (fresh : Bool) (gap : List Char) : gapTokens (nesting + 1) fresh gap = [] :=
  gapTokens_eq_nil (fun h => by cases h) fresh

theorem Closes.cons {t : Token} (ht : t ∈ [.rightParen, .rightBracket, .eof]) (as : List Token) : Closes (t :: as) := by
  rintro _ _ ⟨⟩
  exact ht

theorem Closes.not_isSuffix {as ts : List Token} (has : Closes as) (h : ∀ t rest, ts = t :: rest → ¬Parser.isSuffix t)
    (t : Token) (rest : List Token) (heq : ts ++ as = t :: rest) : ¬Parser.isSuffix t := by
  cases ts with
  | nil =>
    have hmem := has t rest heq
    rintro (rfl | rfl | rfl) <;> simp at hmem
  | cons t' ts => exact (List.cons.inj heq).1 ▸ h t' ts rfl

theorem gapTokens_ne_identifier {nesting : Nat} {fresh : Bool} {gap : List Char} {as : List Token}
    (h : ∀ a rest, as ≠ .identifier a :: rest) : ∀ a rest, gapTokens nesting fresh gap ++ as ≠ .identifier a :: rest :=
  fun a rest heq => h a rest (of_gapTokens (by simp) heq)

theorem Source.becomes {names : List String} {code : String → String → Prop}
    (hcode : ∀ body : Segments, body.Spells names → body.Clear names →
      code (String.ofList body.raw) (String.ofList body.awaited.raw)) :
    ∀ {src : Source} (nesting nesting' : Nat) (fresh : Bool) (lead : Lead) {next : List Char} {s : List Frame}
      {as bs : List Token}, src.Spells names nesting next → src.Clear names nesting lead →
      (nesting = 0 ↔ nesting' = 0) → Closes as → Becomes names code s as bs →
      Becomes names code s (lead.tokens ++ (src.tokens nesting fresh ++ as))
        (lead.tokens ++ ((src.awaited (decide (lead = .await))).tokens nesting' fresh ++ bs))
  | .done gap, _, _, fresh, lead, _, _, as, _, _, _, hnesting, has, h => by
    refine .lead lead (gapTokens_ne_identifier fun a rest heq => ?_) (h.gap hnesting fresh gap)
    exact absurd (has _ _ heq) (by simp)
  | .leaf gap atom rest, nesting, nesting', fresh, lead, _, _, as, bs, ⟨_, _, hrest⟩, ⟨hline, hquiet, hclear⟩, hnesting,
      has, h => by
    have htail := Source.becomes hcode _ _ (decide (atom.token = .semicolon)) _ hrest hclear hnesting has h
    simp only [Lead.after_eq_await] at htail
    simp only [tokens, awaited, List.append_assoc, List.cons_append]
    rcases atom.token_cases with ⟨text, rfl, htoken⟩ | rfl | htoken | htoken
    · rw [htoken] at htail hclear ⊢
      exact htail.word fresh hnesting hline fun hdot =>
        mt (Source.calls_of_starts _ has hclear) (hquiet [] text rfl rfl fun _ => hdot)
    · exact .lead lead (gapTokens_ne_identifier fun a rest heq => by cases heq) (htail.gap hnesting fresh gap)
    · rw [htoken] at htail ⊢
      exact .lead lead (gapTokens_ne_identifier fun a rest heq => by cases heq) (htail.gap hnesting fresh gap)
    · rw [Lead.after_of_other htoken] at htail
      refine .lead lead (gapTokens_ne_identifier fun a rest heq => ?_) ((htail.token htoken).gap hnesting fresh gap)
      rw [(List.cons.inj heq).1] at htoken
      cases htoken
  | .template gap body rest, _, _, fresh, lead, _, _, as, bs, ⟨_, hbody, hrest⟩, ⟨hinside, hclear⟩, hnesting, has, h => by
    have htail := Source.becomes hcode _ _ false .other hrest hclear hnesting has h
    have hbecomes := (htail.template (hcode body hbody hinside)).gap hnesting fresh gap
    simp only [tokens, awaited, List.append_assoc, List.cons_append]
    exact .lead lead (gapTokens_ne_identifier fun a rest heq => by cases heq) hbecomes
  | .group gap bracket inner rest, nesting, nesting', fresh, lead, _, s, as, bs, ⟨_, hinner, hrest⟩, ⟨hinside, hclear⟩, hnesting, has,
      h => by
    have htail : Becomes names code s (rest.tokens _ false ++ as) ((rest.awaited false).tokens _ false ++ bs) :=
      Source.becomes hcode _ _ false .other hrest hclear hnesting has h
    have hnesting' : nesting + 1 = 0 ↔ nesting' + 1 = 0 := by omega
    simp only [tokens, awaited, List.append_assoc, List.cons_append]
    refine .lead lead (gapTokens_ne_identifier fun a rest heq => by cases bracket <;> cases heq) (.gap hnesting fresh gap ?_)
    cases bracket with
    | round =>
      exact .opening (Source.becomes hcode _ _ false .other hinner hinside hnesting'
        (.cons (by simp [Bracket.closingToken]) _) htail.close)
    | square =>
      exact .token rfl (Source.becomes hcode _ _ false .other hinner hinside hnesting'
        (.cons (by simp [Bracket.closingToken]) _) (htail.token rfl))
  | .call gap target args rest, nesting, nesting', fresh, lead, _, s, as, bs, ⟨_, htarget, _, hargs, hrest⟩,
      ⟨hlead, hawait, _, hinside, hclear⟩, hnesting, has, h => by
    have htail : Becomes names code s (rest.tokens _ false ++ as) ((rest.awaited false).tokens _ false ++ bs) :=
      Source.becomes hcode _ _ false .other hrest hclear hnesting has h
    cases lead with
    | dot => exact absurd rfl hlead
    | other =>
      have hinner := Source.becomes hcode (nesting + 1) (nesting' + 1 + 1) false .other hargs hinside (by omega)
        (.cons (by simp) _) htail.closeWrapped
      have hcall := (Becomes.call htarget hinner).gap hnesting fresh gap
      simp only [tokens, awaited, reduceCtorEq, decide_false, Bool.false_eq_true, if_false, gapTokens_succ,
        List.nil_append, List.append_assoc, List.cons_append]
      exact hcall
    | await =>
      obtain ⟨hline, hsuffix⟩ := hawait rfl
      have hinner := Source.becomes hcode (nesting + 1) (nesting' + 1) false .other hargs hinside (by omega)
        (.cons (by simp) _) (htail.closeAwaited (has.not_isSuffix hsuffix))
      simp only [tokens, awaited, decide_true, if_true, gapTokens_eq_nil hline,
        gapTokens_eq_nil fun hzero => hline (hnesting.2 hzero), List.nil_append, List.append_assoc, List.cons_append]
      exact .awaitedCall htarget hinner

end LiveSheet.Await
