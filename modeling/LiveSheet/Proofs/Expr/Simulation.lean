import LiveSheet.Proofs.Expr.Overt

/-! Tokens with their calls awaited are read as the expression with its calls awaited. The proof
follows the descent: where the first tokens are read as an expression, the second ones are read as
the other one, and what is left are again awaited tokens. A function needs at most sixteen steps of
depth for each token it takes, so the bound on the depth is never met. -/

namespace LiveSheet

namespace Parser

variable (names : List String) (code : String → String → Prop)
  (template template' : String → Except SheetError (List (Part Expr)))

/-- What one reader made of some tokens, the other makes of the awaited ones. -/
def Follows (slack : Nat) (s : List Frame) (ts us : Tokens) (e : Expr) (r : Tokens)
    (read : Nat → Except SheetError (Expr × Tokens)) : Prop :=
  r <:+ ts ∧ ∃ vs, Awaits names code s r vs ∧ vs.length < us.length ∧
    ∀ m, 16 * (us.length - vs.length) ≤ m + slack → read m = .ok (e.awaitCalls names false, vs)

/-- The same for readers that continue an expression, and may take no token. -/
def Continues (s : List Frame) (ts us : Tokens) (e : Expr) (r : Tokens)
    (read : Nat → Except SheetError (Expr × Tokens)) : Prop :=
  r <:+ ts ∧ ∃ vs, Awaits names code s r vs ∧ vs.length ≤ us.length ∧
    ∀ m, 16 * (us.length - vs.length) + 1 ≤ m → read m = .ok (e.awaitCalls names false, vs)

/-- The same for lists of expressions up to a closing token. The frame of the closing token is
still on the list. -/
def Closes (s : List Frame) (close : Token) (ts us : Tokens) (es : List Expr) (r : Tokens)
    (read : Nat → Except SheetError (List Expr × Tokens)) : Prop :=
  (∃ p, ⟨close, p⟩ :: r <:+ ts) ∧ ∃ vs p p', Awaits names code s (⟨close, p⟩ :: r) (⟨close, p'⟩ :: vs) ∧
    vs.length < us.length ∧
    ∀ m, 16 * (us.length - vs.length) ≤ m → read m = .ok (Expr.awaitAll names es, vs)

/-- The readers follow each other on all tokens, to a depth. -/
structure Simulates (n : Nat) : Prop where
  ternary : ∀ s ts us e r, Awaits names code s ts us → Overt names ts → ¬StartsCall names r →
    Parser.ternary template n ts = .ok (e, r) →
    Follows names code 6 s ts us e r fun m => Parser.ternary template' m us
  binary : ∀ s ts us e r level, level ≤ levels → Awaits names code s ts us → Overt names ts →
    ¬StartsCall names r → Parser.binary template n level ts = .ok (e, r) →
    Follows names code (7 + level) s ts us e r fun m => Parser.binary template' m level us
  binaryRest : ∀ s ts us l e r level, level < levels → Awaits names code s ts us →
    Overt names ts → ¬StartsCall names r → Parser.binaryRest template n level l ts = .ok (e, r) →
    Continues names code s ts us e r fun m =>
      Parser.binaryRest template' m level (l.awaitCalls names false) us
  unary : ∀ s ts us e r, Awaits names code s ts us → Overt names ts → ¬StartsCall names r →
    Parser.unary template n ts = .ok (e, r) →
    Follows names code 14 s ts us e r fun m => Parser.unary template' m us
  suffixes : ∀ s ts us x e r, Awaits names code s ts us → Overt names ts → ¬Leads names x ts →
    ¬StartsCall names r → Parser.suffixes template n x ts = .ok (e, r) →
    Continues names code s ts us e r fun m => Parser.suffixes template' m (x.awaitCalls names false) us
  arguments : ∀ s ts us close unclosed es r, close = .rightParen ∨ close = .rightBracket →
    Awaits names code s ts us → Overt names ts →
    Parser.arguments template n close unclosed ts = .ok (es, r) →
    Closes names code s close ts us es r fun m => Parser.arguments template' m close unclosed us
  primary : ∀ s ts us e r, Awaits names code s ts us → Overt names ts → ¬StartsCall names ts →
    Parser.primary template n ts = .ok (e, r) → ¬Leads names e r ∧
    Follows names code 15 s ts us e r fun m => Parser.primary template' m us

variable {names code template template'} {n : Nat}

theorem simulates_zero : Simulates names code template template' 0 where
  ternary _ _ _ _ _ _ _ _ h := absurd h (fault_ne_ok _ _ _)
  binary _ _ _ _ _ _ _ _ _ _ h := absurd h (fault_ne_ok _ _ _)
  binaryRest _ _ _ _ _ _ _ _ _ _ _ h := absurd h (fault_ne_ok _ _ _)
  unary _ _ _ _ _ _ _ _ h := absurd h (fault_ne_ok _ _ _)
  suffixes _ _ _ _ _ _ _ _ _ _ h := absurd h (fault_ne_ok _ _ _)
  arguments _ _ _ _ _ _ _ _ _ _ h := absurd h (fault_ne_ok _ _ _)
  primary _ _ _ _ _ _ _ _ h := absurd h (fault_ne_ok _ _ _)

theorem skipNewlines_suffix (ts : Tokens) : skipNewlines ts <:+ ts :=
  have ⟨gap, _, hts, _⟩ := skipNewlines_eq ts
  ⟨gap, hts.symm⟩

theorem length_skipNewlines_le (ts : Tokens) : (skipNewlines ts).length ≤ ts.length :=
  (skipNewlines_suffix ts).length_le

@[simp] theorem operator?_template (level : Nat) (raw : String) : operator? level (.template raw) = none := by
  unfold operator?
  split <;> first | rfl | contradiction

theorem isOther_of_operator {level : Nat} {t : Token} {op : BinaryOp} (h : operator? level t = some op) :
    isOther t = true := by
  unfold operator? at h
  split at h <;> first | rfl | cases h

theorem not_startsCall_of_other {t : Token} {p : Position} {ts : Tokens} (h : isOther t = true) :
    ¬StartsCall names (⟨t, p⟩ :: ts) :=
  not_startsCall_cons fun a ha => by simp [ha, isOther] at h

theorem not_startsCall_of_binaryRest {level : Nat} {l e : Expr} {ts r : Tokens} (hr : ¬StartsCall names r)
    (h : binaryRest template n level l ts = .ok (e, r)) : ¬StartsCall names ts := by
  cases n with
  | zero => exact absurd h (fault_ne_ok _ _ _)
  | succ n =>
    rcases binaryRest_eq_ok.1 h with ⟨_, _, rfl⟩ | ⟨t, rest, op, _, _, rfl, hop, _⟩
    · exact hr
    · exact not_startsCall_of_other (isOther_of_operator hop)

variable (ih : ∀ k ≤ n, Simulates names code template template' k)
include ih

theorem ternary_follows {s : List Frame} {ts us : Tokens} {e : Expr} {r : Tokens}
    (hts : Awaits names code s ts us) (hovert : Overt names ts) (hr : ¬StartsCall names r)
    (h : ternary template (n + 1) ts = .ok (e, r)) :
    Follows names code 6 s ts us e r fun m => ternary template' m us := by
  have ih := ih n (Nat.le_refl n)
  obtain ⟨c, ts₁, hc, ⟨hq, rfl, rfl⟩ | ⟨p, ts₂, a, ts₃, q, ts₄, b, rfl, ha, hcolon, hb, rfl⟩⟩ := ternary_eq_ok.1 h
  · obtain ⟨hsuffix, vs, hvs, hlength, hread⟩ := ih.binary _ _ _ _ _ 0 (Nat.zero_le _) hts hovert hr hc
    refine ⟨hsuffix, vs, hvs, hlength, fun m hm => ?_⟩
    obtain ⟨m, rfl⟩ : ∃ k, m = k + 1 := ⟨m - 1, by omega⟩
    refine ternary_eq_ok.2 ⟨_, vs, hread m (by omega), Or.inl ⟨?_, rfl, rfl⟩⟩
    rintro p rest rfl
    rcases hvs.head hr with ⟨q, rest', rfl⟩ | ⟨_, _, _, _, heq, _⟩
    · exact hq q rest' rfl
    · cases heq
  · have hquestion : ¬StartsCall names (⟨.question, p⟩ :: ts₂) := not_startsCall_cons (by simp)
    obtain ⟨hsuffix, vs, hvs, hlength, hread⟩ := ih.binary _ _ _ _ _ 0 (Nat.zero_le _) hts hovert hquestion hc
    obtain ⟨p', vs₂, rfl, hvs₂⟩ := hvs.of_other rfl
    have hsuffix₂ := (skipNewlines_suffix ts₂).trans ((List.suffix_cons _ _).trans hsuffix)
    have hcolon' : ¬StartsCall names ts₃ := by
      refine not_startsCall_of_head fun a q rest heq => ?_
      subst heq
      cases hcolon
    obtain ⟨hsuffix₃, vs₃, hvs₃, hlength₃, hread₃⟩ :=
      ih.ternary _ _ _ _ _ hvs₂.skipNewlines (hovert.of_suffix hsuffix₂) hcolon' ha
    have hvs₃ := hvs₃.skipNewlines
    rw [hcolon] at hvs₃
    obtain ⟨q', vs₄, hcolon₄, hvs₄⟩ := hvs₃.of_other rfl
    have hsuffix₄ : ts₄ <:+ ts := by
      have hcolon₃ : ⟨.colon, q⟩ :: ts₄ <:+ ts₃ := hcolon ▸ skipNewlines_suffix ts₃
      exact (List.suffix_cons _ _).trans (hcolon₃.trans (hsuffix₃.trans hsuffix₂))
    have hsuffix₅ := (skipNewlines_suffix ts₄).trans hsuffix₄
    obtain ⟨hsuffix₆, vs₅, hvs₅, hlength₅, hread₅⟩ :=
      ih.ternary _ _ _ _ _ hvs₄.skipNewlines (hovert.of_suffix hsuffix₅) hr hb
    have h₂ := length_skipNewlines_le vs₂
    have h₃ := length_skipNewlines_le vs₃
    have h₄ := length_skipNewlines_le vs₄
    rw [hcolon₄] at h₃
    simp only [List.length_cons] at hlength hread h₃
    refine ⟨hsuffix₆.trans hsuffix₅, vs₅, hvs₅, by omega, fun m hm => ?_⟩
    obtain ⟨m, rfl⟩ : ∃ k, m = k + 1 := ⟨m - 1, by omega⟩
    refine ternary_eq_ok.2 ⟨_, _, hread m (by omega), Or.inr ⟨p', vs₂, _, vs₃, q', vs₄, _, rfl,
      hread₃ m (by omega), hcolon₄, hread₅ m (by omega), ?_⟩⟩
    simp only [Expr.awaitCalls]

theorem binary_follows {s : List Frame} {ts us : Tokens} {e : Expr} {r : Tokens} {level : Nat}
    (hlevel : level ≤ levels) (hts : Awaits names code s ts us) (hovert : Overt names ts)
    (hr : ¬StartsCall names r) (h : binary template (n + 1) level ts = .ok (e, r)) :
    Follows names code (7 + level) s ts us e r fun m => binary template' m level us := by
  have ih := ih n (Nat.le_refl n)
  have hlevels : levels = 6 := rfl
  by_cases hlt : level < levels
  · obtain ⟨l, ts₁, hl, hrest⟩ := (binary_eq_ok hlt).1 h
    have hts₁ := not_startsCall_of_binaryRest hr hrest
    obtain ⟨hsuffix, vs, hvs, hlength, hread⟩ := ih.binary _ _ _ _ _ (level + 1) hlt hts hovert hts₁ hl
    obtain ⟨hsuffix', vs', hvs', hlength', hread'⟩ :=
      ih.binaryRest _ _ _ _ _ _ level hlt hvs (hovert.of_suffix hsuffix) hr hrest
    refine ⟨hsuffix'.trans hsuffix, vs', hvs', by omega, fun m hm => ?_⟩
    obtain ⟨m, rfl⟩ : ∃ k, m = k + 1 := ⟨m - 1, by omega⟩
    exact (binary_eq_ok hlt).2 ⟨_, vs, hread m (by omega), hread' m (by omega)⟩
  · rw [binary_levels hlt] at h
    obtain ⟨hsuffix, vs, hvs, hlength, hread⟩ := ih.unary _ _ _ _ _ hts hovert hr h
    refine ⟨hsuffix, vs, hvs, hlength, fun m hm => ?_⟩
    obtain ⟨m, rfl⟩ : ∃ k, m = k + 1 := ⟨m - 1, by omega⟩
    exact (binary_levels hlt).trans (hread m (by omega))

theorem binaryRest_continues {s : List Frame} {ts us : Tokens} {l e : Expr} {r : Tokens} {level : Nat}
    (hlevel : level < levels) (hts : Awaits names code s ts us) (hovert : Overt names ts)
    (hr : ¬StartsCall names r) (h : binaryRest template (n + 1) level l ts = .ok (e, r)) :
    Continues names code s ts us e r fun m => binaryRest template' m level (l.awaitCalls names false) us := by
  have ih := ih n (Nat.le_refl n)
  have hlevels : levels = 6 := rfl
  rcases binaryRest_eq_ok.1 h with ⟨hop, rfl, rfl⟩ | ⟨⟨t, p⟩, rest, op, x, ts₁, rfl, hop, hx, hrest⟩
  · refine ⟨List.suffix_rfl, us, hts, Nat.le_refl _, fun m hm => ?_⟩
    obtain ⟨m, rfl⟩ : ∃ k, m = k + 1 := ⟨m - 1, by omega⟩
    refine binaryRest_eq_ok.2 (Or.inl ⟨?_, rfl, rfl⟩)
    rintro ⟨t, p⟩ rest rfl
    rcases hts.head hr with ⟨q, rest', rfl⟩ | ⟨_, raw, _, _, rfl, _⟩
    · exact hop ⟨t, q⟩ rest' rfl
    · exact operator?_template level raw
  · obtain ⟨p', us₁, rfl, hus₁⟩ := hts.of_other (isOther_of_operator hop)
    have hts₁ := not_startsCall_of_binaryRest hr hrest
    have hsuffix₁ := (skipNewlines_suffix rest).trans (List.suffix_cons ⟨t, p⟩ rest)
    obtain ⟨hsuffix, vs, hvs, hlength, hread⟩ := ih.binary _ _ _ _ _ (level + 1) hlevel hus₁.skipNewlines
      (hovert.of_suffix hsuffix₁) hts₁ hx
    obtain ⟨hsuffix', vs', hvs', hlength', hread'⟩ := ih.binaryRest _ _ _ _ _ _ level hlevel hvs
      (hovert.of_suffix (hsuffix.trans hsuffix₁)) hr hrest
    have h₁ := length_skipNewlines_le us₁
    refine ⟨hsuffix'.trans (hsuffix.trans hsuffix₁), vs', hvs', by simp only [List.length_cons]; omega,
      fun m hm => ?_⟩
    simp only [List.length_cons] at hm
    obtain ⟨m, rfl⟩ : ∃ k, m = k + 1 := ⟨m - 1, by omega⟩
    refine binaryRest_eq_ok.2 (Or.inr ⟨_, us₁, op, _, vs, rfl, hop, hread m (by omega), ?_⟩)
    have hread' := hread' m (by omega)
    simp only [Expr.awaitCalls] at hread'
    exact hread'

theorem suffixes_continues {s : List Frame} {ts us : Tokens} {x e : Expr} {r : Tokens}
    (hts : Awaits names code s ts us) (hovert : Overt names ts) (hleads : ¬Leads names x ts)
    (hr : ¬StartsCall names r) (h : suffixes template (n + 1) x ts = .ok (e, r)) :
    Continues names code s ts us e r fun m => suffixes template' m (x.awaitCalls names false) us := by
  have ih := ih n (Nat.le_refl n)
  rcases suffixes_eq_ok.1 h with ⟨hnone, rfl, rfl⟩ | ⟨p, rest, args, ts₁, rfl, hargs, hrest⟩ |
    ⟨p, q, name, rest, rfl, hrest⟩ | ⟨p, rest, key, q, ts₁, rfl, hkey, hrest⟩
  · refine ⟨List.suffix_rfl, us, hts, Nat.le_refl _, fun m hm => ?_⟩
    obtain ⟨m, rfl⟩ : ∃ k, m = k + 1 := ⟨m - 1, by omega⟩
    refine suffixes_eq_ok.2 (Or.inl ⟨?_, rfl, rfl⟩)
    rintro t p rest rfl
    rcases hts.head hr with ⟨q, rest', rfl⟩ | ⟨_, raw, _, _, rfl, _⟩
    · exact hnone _ _ _ rfl
    · simp [isSuffix]
  · obtain ⟨p', us₁, rfl, hus₁⟩ := hts.of_opening
    have hcall : x.isNamed names = false := by
      refine Bool.eq_false_iff.2 fun hx => hleads (Or.inl ⟨hx, p, rest, rfl⟩)
    obtain ⟨⟨q, hsuffix⟩, vs, q₁, q₂, hvs, hlength, hread⟩ := ih.arguments _ _ _ _ _ _ _ (Or.inl rfl) hus₁
      (hovert.of_suffix (List.suffix_cons _ _)) hargs
    have hsuffix := (List.suffix_cons _ _).trans (hsuffix.trans (List.suffix_cons ⟨.leftParen, p⟩ rest))
    obtain ⟨hsuffix', vs', hvs', hlength', hread'⟩ := ih.suffixes _ _ _ (.call x args) _ _ hvs.of_close
      (hovert.of_suffix hsuffix) (by simp [Leads, Expr.isNamed, Expr.calleePath?]) hr hrest
    refine ⟨hsuffix'.trans hsuffix, vs', hvs', by simp only [List.length_cons]; omega, fun m hm => ?_⟩
    simp only [List.length_cons] at hm
    obtain ⟨m, rfl⟩ : ∃ k, m = k + 1 := ⟨m - 1, by omega⟩
    refine suffixes_eq_ok.2 (Or.inr (Or.inl ⟨p', us₁, _, vs, rfl, hread m (by omega), ?_⟩))
    have hread' := hread' m (by omega)
    simp only [Expr.awaitCalls, hcall, Bool.not_false, Bool.and_false] at hread'
    exact hread'
  · obtain ⟨p', q', us₁, rfl, hus₁⟩ := hts.of_member
    have hsuffix : rest <:+ ⟨.dot, p⟩ :: ⟨.identifier name, q⟩ :: rest :=
      (List.suffix_cons _ _).trans (List.suffix_cons _ _)
    have hleads' : ¬Leads names (.member x name) rest := by
      rintro (⟨hx, t, rest', rfl⟩ | ⟨a, b, _, _, _, _, heq, _⟩)
      · cases x with
        | identifier a =>
          refine hleads (Or.inr ⟨a, name, p, q, t, rest', rfl, ?_, rfl⟩)
          simpa [Expr.isNamed, Expr.calleePath?] using hx
        | _ => simp [Expr.isNamed, Expr.calleePath?] at hx
      · cases heq
    obtain ⟨hsuffix', vs', hvs', hlength', hread'⟩ := ih.suffixes _ _ _ (.member x name) _ _ hus₁
      (hovert.of_suffix hsuffix) hleads' hr hrest
    refine ⟨hsuffix'.trans hsuffix, vs', hvs', by simp only [List.length_cons]; omega, fun m hm => ?_⟩
    simp only [List.length_cons] at hm
    obtain ⟨m, rfl⟩ : ∃ k, m = k + 1 := ⟨m - 1, by omega⟩
    refine suffixes_eq_ok.2 (Or.inr (Or.inr (Or.inl ⟨p', q', name, us₁, rfl, ?_⟩)))
    have hread' := hread' m (by omega)
    simp only [Expr.awaitCalls] at hread'
    exact hread'
  · obtain ⟨p', us₁, rfl, hus₁⟩ := hts.of_other rfl
    obtain ⟨hsuffix, vs, hvs, hlength, hread⟩ := ih.ternary _ _ _ _ _ hus₁
      (hovert.of_suffix (List.suffix_cons _ _)) (not_startsCall_of_other rfl) hkey
    obtain ⟨q', vs₁, rfl, hvs₁⟩ := hvs.of_other rfl
    have hsuffix := (List.suffix_cons _ _).trans (hsuffix.trans (List.suffix_cons ⟨.leftBracket, p⟩ rest))
    obtain ⟨hsuffix', vs', hvs', hlength', hread'⟩ := ih.suffixes _ _ _ (.index x key) _ _ hvs₁
      (hovert.of_suffix hsuffix) (by simp [Leads, Expr.isNamed, Expr.calleePath?]) hr hrest
    simp only [List.length_cons] at hlength hread
    refine ⟨hsuffix'.trans hsuffix, vs', hvs', by simp only [List.length_cons]; omega, fun m hm => ?_⟩
    simp only [List.length_cons] at hm
    obtain ⟨m, rfl⟩ : ∃ k, m = k + 1 := ⟨m - 1, by omega⟩
    refine suffixes_eq_ok.2 (Or.inr (Or.inr (Or.inr ⟨p', us₁, _, q', vs₁, rfl, hread m (by omega), ?_⟩)))
    have hread' := hread' m (by omega)
    simp only [Expr.awaitCalls] at hread'
    exact hread'

theorem arguments_closes {s : List Frame} {ts us : Tokens} {close : Token} {unclosed : Token → SyntaxFault}
    {es : List Expr} {r : Tokens} (hclose : close = .rightParen ∨ close = .rightBracket)
    (hts : Awaits names code s ts us) (hovert : Overt names ts)
    (h : arguments template (n + 1) close unclosed ts = .ok (es, r)) :
    Closes names code s close ts us es r fun m => arguments template' m close unclosed us := by
  have ih := ih n (Nat.le_refl n)
  rcases arguments_eq_ok.1 h with ⟨p, rfl, rfl⟩ | ⟨⟨t, p⟩, rest, x, ts₁, rfl, ht, hx, hmore⟩
  · obtain ⟨p', vs, rfl⟩ := hts.of_closing hclose
    refine ⟨⟨p, List.suffix_rfl⟩, vs, p, p', hts, by simp, fun m hm => ?_⟩
    simp only [List.length_cons] at hm
    obtain ⟨m, rfl⟩ : ∃ k, m = k + 1 := ⟨m - 1, by omega⟩
    exact arguments_eq_ok.2 (Or.inl ⟨p', rfl, rfl⟩)
  · have hhead : ∃ t' us₁, us = t' :: us₁ ∧ t'.token ≠ close := by
      cases us with
      | nil => cases hts
      | cons t' us₁ =>
        obtain ⟨t', p'⟩ := t'
        exact ⟨_, us₁, rfl, hts.head_ne_closing hclose ht⟩
    obtain ⟨t', us₁, rfl, ht'⟩ := hhead
    rcases hmore with ⟨q, ts₂, xs, rfl, hxs, rfl⟩ | ⟨hcomma, q, rfl, rfl⟩
    · obtain ⟨hsuffix, vs, hvs, hlength, hread⟩ :=
        ih.ternary _ _ _ _ _ hts hovert (not_startsCall_of_other rfl) hx
      obtain ⟨q', vs₁, rfl, hvs₁⟩ := hvs.of_other rfl
      have hsuffix := (List.suffix_cons _ _).trans hsuffix
      obtain ⟨⟨q₀, hsuffix'⟩, vs', q₁, q₂, hvs', hlength', hread'⟩ := ih.arguments _ _ _ _ _ _ _ hclose hvs₁
        (hovert.of_suffix hsuffix) hxs
      simp only [List.length_cons] at hlength hread
      refine ⟨⟨q₀, hsuffix'.trans hsuffix⟩, vs', q₁, q₂, hvs', by simp only [List.length_cons]; omega, fun m hm => ?_⟩
      simp only [List.length_cons] at hm
      obtain ⟨m, rfl⟩ : ∃ k, m = k + 1 := ⟨m - 1, by omega⟩
      refine arguments_eq_ok.2 (Or.inr ⟨t', us₁, _, _, rfl, ht', hread m (by omega),
        Or.inl ⟨q', vs₁, _, rfl, hread' m (by omega), ?_⟩⟩)
      simp only [Expr.awaitAll]
    · have hcall : ¬StartsCall names (⟨close, q⟩ :: r) := by
        rcases hclose with rfl | rfl <;> exact not_startsCall_cons (by simp)
      obtain ⟨hsuffix, vs, hvs, hlength, hread⟩ := ih.ternary _ _ _ _ _ hts hovert hcall hx
      obtain ⟨q', vs₁, rfl⟩ := hvs.of_closing hclose
      simp only [List.length_cons] at hlength hread
      refine ⟨⟨q, hsuffix⟩, vs₁, q, q', hvs, by simp only [List.length_cons]; omega, fun m hm => ?_⟩
      simp only [List.length_cons] at hm
      obtain ⟨m, rfl⟩ : ∃ k, m = k + 1 := ⟨m - 1, by omega⟩
      refine arguments_eq_ok.2 (Or.inr ⟨t', us₁, _, _, rfl, ht', hread m (by omega), Or.inr ⟨?_, q', rfl, ?_⟩⟩)
      · intro p' ts₂ heq
        cases heq
        rcases hclose with h | h <;> cases h
      · simp only [Expr.awaitAll]

omit ih in
theorem atom_follows {s : List Frame} {t : Token} {p : Position} {us : Tokens} {e : Expr} {r : Tokens}
    (hts : Awaits names code s (⟨t, p⟩ :: r) us) (hcall : ¬StartsCall names (⟨t, p⟩ :: r))
    (he : atom? t = some e) : ¬Leads names e r ∧
    Follows names code 15 s (⟨t, p⟩ :: r) us e r fun m => primary template' m us := by
  have hread : ∀ {p' us₁}, us = ⟨t, p'⟩ :: us₁ → Awaits names code s r us₁ → e.awaitCalls names false = e →
      Follows names code 15 s (⟨t, p⟩ :: r) us e r fun m => primary template' m us := by
    rintro p' us₁ rfl hus₁ hsame
    refine ⟨List.suffix_cons _ _, us₁, hus₁, by simp, fun m hm => ?_⟩
    simp only [List.length_cons] at hm
    obtain ⟨m, rfl⟩ : ∃ k, m = k + 1 := ⟨m - 1, by omega⟩
    exact primary_eq_ok.2 (Or.inl ⟨t, p', rfl, hsame.symm ▸ he⟩)
  by_cases hname : ∃ a, t = .identifier a
  · obtain ⟨a, rfl⟩ := hname
    obtain rfl : .identifier a = e := Option.some.inj he
    obtain ⟨p', us₁, hus, hus₁⟩ := hts.of_name hcall
    refine ⟨?_, hread hus hus₁ (by simp only [Expr.awaitCalls])⟩
    rintro (⟨hnamed, q, rest, rfl⟩ | ⟨_, b, q, q', t, rest, heq, hnamed, rfl⟩)
    · exact hcall ⟨_, q, rest, .name (by simpa [Expr.isNamed, Expr.calleePath?] using hnamed)⟩
    · cases heq
      exact hcall ⟨_, t, rest, .path hnamed⟩
  · have hother : isOther t = true := by
      unfold atom? at he
      split at he <;> first | rfl | exact absurd ⟨_, rfl⟩ hname | cases he
    obtain ⟨p', us₁, hus, hus₁⟩ := hts.of_other hother
    unfold atom? at he
    split at he <;> cases he
    case h_7 => exact absurd ⟨_, rfl⟩ hname
    all_goals exact ⟨by simp [Leads, Expr.isNamed, Expr.calleePath?], hread hus hus₁ (by simp only [Expr.awaitCalls])⟩

theorem primary_follows (hcode : ∀ raw raw' parts, code raw raw' → template raw = .ok parts →
      template' raw' = .ok (Expr.awaitParts names parts)) {s : List Frame} {ts us : Tokens} {e : Expr} {r : Tokens}
    (hts : Awaits names code s ts us) (hovert : Overt names ts) (hcall : ¬StartsCall names ts)
    (h : primary template (n + 1) ts = .ok (e, r)) : ¬Leads names e r ∧
    Follows names code 15 s ts us e r fun m => primary template' m us := by
  have ih := ih n (Nat.le_refl n)
  rcases primary_eq_ok.1 h with ⟨t, p, rfl, he⟩ | ⟨raw, p, parts, rfl, hparts, rfl⟩ |
    ⟨p, rest, q, rfl, hinner⟩ | ⟨p, rest, items, rfl, hitems, rfl⟩
  · exact atom_follows hts hcall he
  · obtain ⟨raw', p', us₁, rfl, hraw, hus₁⟩ := hts.of_template
    refine ⟨by simp [Leads, Expr.isNamed, Expr.calleePath?], List.suffix_cons _ _, us₁, hus₁, by simp, fun m hm => ?_⟩
    simp only [List.length_cons] at hm
    obtain ⟨m, rfl⟩ : ∃ k, m = k + 1 := ⟨m - 1, by omega⟩
    refine primary_eq_ok.2 (Or.inr (Or.inl ⟨raw', p', _, rfl, hcode _ _ _ hraw hparts, ?_⟩))
    simp only [Expr.awaitCalls]
  · obtain ⟨p', us₁, rfl, hus₁⟩ := hts.of_opening
    obtain ⟨hsuffix, vs, hvs, hlength, hread⟩ := ih.ternary _ _ _ _ _ hus₁
      (hovert.of_suffix (List.suffix_cons _ _)) (not_startsCall_cons (by simp)) hinner
    obtain ⟨q', vs₁, rfl⟩ := hvs.of_closing (Or.inl rfl)
    simp only [List.length_cons] at hlength hread
    refine ⟨hovert.not_leads List.suffix_rfl hinner,
      (List.suffix_cons _ _).trans (hsuffix.trans (List.suffix_cons _ _)), vs₁, hvs.of_close,
      by simp only [List.length_cons]; omega, fun m hm => ?_⟩
    simp only [List.length_cons] at hm
    obtain ⟨m, rfl⟩ : ∃ k, m = k + 1 := ⟨m - 1, by omega⟩
    exact primary_eq_ok.2 (Or.inr (Or.inr (Or.inl ⟨p', us₁, q', rfl, hread m (by omega)⟩)))
  · obtain ⟨p', us₁, rfl, hus₁⟩ := hts.of_other rfl
    obtain ⟨⟨q, hsuffix⟩, vs, q₁, q₂, hvs, hlength, hread⟩ := ih.arguments _ _ _ _ _ _ _ (Or.inr rfl) hus₁
      (hovert.of_suffix (List.suffix_cons _ _)) hitems
    obtain ⟨_, vs₁, heq, hvs₁⟩ := hvs.of_other rfl
    cases heq
    refine ⟨by simp [Leads, Expr.isNamed, Expr.calleePath?],
      (List.suffix_cons _ _).trans (hsuffix.trans (List.suffix_cons _ _)), vs, hvs₁,
      by simp only [List.length_cons]; omega, fun m hm => ?_⟩
    simp only [List.length_cons] at hm
    obtain ⟨m, rfl⟩ : ∃ k, m = k + 1 := ⟨m - 1, by omega⟩
    refine primary_eq_ok.2 (Or.inr (Or.inr (Or.inr ⟨p', us₁, _, rfl, hread m (by omega), ?_⟩)))
    simp only [Expr.awaitCalls]

end Parser

end LiveSheet
