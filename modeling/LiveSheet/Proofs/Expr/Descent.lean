import LiveSheet.Expr.Parser

/-! What each function of the descent reads, one lemma a function. A function succeeds in a few
ways, and each names the tokens it took and what the functions below it read. -/

namespace LiveSheet.Parser

theorem bind_eq_ok {α β : Type} {x : Except SheetError α} {f : α → Except SheetError β} {b : β} :
    (x >>= f) = .ok b ↔ ∃ a, x = .ok a ∧ f a = .ok b := by
  cases x with
  | error e => simp [bind, Except.bind]
  | ok a => simp [bind, Except.bind]

theorem map_eq_ok {α β : Type} {x : Except SheetError α} {f : α → β} {b : β} :
    x.map f = .ok b ↔ ∃ a, x = .ok a ∧ f a = b := by
  cases x with
  | error e => simp [Except.map]
  | ok a => simp [Except.map]

theorem bind_eq_error {α β : Type} {x : Except SheetError α} {f : α → Except SheetError β} {e : SheetError} :
    (x >>= f) = .error e ↔ x = .error e ∨ ∃ a, x = .ok a ∧ f a = .error e := by
  cases x with
  | error e => simp [bind, Except.bind]
  | ok a => simp [bind, Except.bind]

theorem map_eq_error {α β : Type} {x : Except SheetError α} {f : α → β} {e : SheetError} :
    x.map f = .error e ↔ x = .error e := by
  cases x with
  | error e => simp [Except.map]
  | ok a => simp [Except.map]

theorem fault_ne_ok {α : Type} (ts : Tokens) (f : Token → SyntaxFault) (a : α) : fault ts f ≠ .ok a := by
  cases ts <;> simp [fault]

theorem expect_eq_ok {token : Token} {f : Token → SyntaxFault} {ts r : Tokens} :
    expect token f ts = .ok r ↔ ∃ p, ts = ⟨token, p⟩ :: r := by
  unfold expect
  cases ts with
  | nil => simp [fault_ne_ok]
  | cons t rest =>
    obtain ⟨t, p⟩ := t
    by_cases h : t = token
    · simp [h]
    · simp [h, fault_ne_ok]

theorem nameAfter_eq_ok {before : Token} {f : Token → SyntaxFault} {ts r : Tokens} {name : String} :
    nameAfter before f ts = .ok (name, r) ↔ ∃ p, ts = ⟨.identifier name, p⟩ :: r := by
  unfold nameAfter
  split
  · simp [and_comm]
  · simp [fault_ne_ok]
  · rename_i t rest hid _
    simp only [fault_ne_ok, List.cons.injEq, false_iff, not_exists, not_and]
    rintro p rfl rfl
    exact hid _ _ rfl
  · simp [fault_ne_ok]

def newlines (n : Nat) : List Token := List.replicate n .newline

theorem skipNewlines_eq (ts : Tokens) : ∃ gap i, ts = gap ++ skipNewlines ts ∧ gap.map (·.token) = newlines i := by
  fun_induction skipNewlines ts with
  | case1 p ts ih =>
    obtain ⟨gap, i, hts, hgap⟩ := ih
    refine ⟨⟨.newline, p⟩ :: gap, i + 1, by rw [List.cons_append, ← hts], ?_⟩
    rw [List.map_cons, hgap]
    rfl
  | case2 ts => exact ⟨[], 0, rfl, rfl⟩

variable {template : String → Except SheetError (List (Part Expr))} {n : Nat} {ts r : Tokens} {e : Expr}

theorem ternary_eq_ok : ternary template (n + 1) ts = .ok (e, r) ↔
    ∃ c ts₁, binary template n 0 ts = .ok (c, ts₁) ∧
      ((∀ p ts₂, ts₁ ≠ ⟨.question, p⟩ :: ts₂) ∧ e = c ∧ r = ts₁ ∨
      ∃ p ts₂ a ts₃ q ts₄ b, ts₁ = ⟨.question, p⟩ :: ts₂ ∧
        ternary template n (skipNewlines ts₂) = .ok (a, ts₃) ∧ skipNewlines ts₃ = ⟨.colon, q⟩ :: ts₄ ∧
        ternary template n (skipNewlines ts₄) = .ok (b, r) ∧ e = .ternary c a b) := by
  rw [ternary, bind_eq_ok]
  constructor
  · rintro ⟨⟨c, ts₁⟩, hc, h⟩
    refine ⟨c, ts₁, hc, ?_⟩
    simp only at h
    split at h
    · rename_i p ts₂
      simp only [bind_eq_ok, expect_eq_ok] at h
      obtain ⟨⟨a, ts₃⟩, ha, ts₄, ⟨q, hq⟩, ⟨b, ts₅⟩, hb, h⟩ := h
      cases h
      exact Or.inr ⟨p, ts₂, a, ts₃, q, ts₄, b, rfl, ha, hq, hb, rfl⟩
    · rename_i hq
      cases h
      exact Or.inl ⟨fun p ts₂ heq => hq p ts₂ heq, rfl, rfl⟩
  · rintro ⟨c, ts₁, hc, ⟨hq, rfl, rfl⟩ | ⟨p, ts₂, a, ts₃, q, ts₄, b, rfl, ha, hq, hb, rfl⟩⟩
    · refine ⟨(e, r), hc, ?_⟩
      simp only
      rfl
    · refine ⟨(c, _), hc, ?_⟩
      simp only [bind_eq_ok, expect_eq_ok]
      exact ⟨(a, ts₃), ha, ts₄, ⟨q, hq⟩, (b, r), hb, rfl⟩

theorem binary_eq_ok {level : Nat} (h : level < levels) : binary template (n + 1) level ts = .ok (e, r) ↔
    ∃ l ts₁, binary template n (level + 1) ts = .ok (l, ts₁) ∧
      binaryRest template n level l ts₁ = .ok (e, r) := by
  rw [binary, if_pos h, bind_eq_ok]
  exact ⟨fun ⟨⟨l, ts₁⟩, hl, h⟩ => ⟨l, ts₁, hl, h⟩, fun ⟨l, ts₁, hl, h⟩ => ⟨(l, ts₁), hl, h⟩⟩

theorem binary_levels {level : Nat} (h : ¬level < levels) :
    binary template (n + 1) level ts = unary template n ts := by
  rw [binary, if_neg h]

theorem binaryRest_eq_ok {level : Nat} {l : Expr} : binaryRest template (n + 1) level l ts = .ok (e, r) ↔
    (∀ t rest, ts = t :: rest → operator? level t.token = none) ∧ e = l ∧ r = ts ∨
    ∃ t rest op x ts₁, ts = t :: rest ∧ operator? level t.token = some op ∧
      binary template n (level + 1) (skipNewlines rest) = .ok (x, ts₁) ∧
      binaryRest template n level (.binary op l x) ts₁ = .ok (e, r) := by
  cases ts with
  | nil => simp [binaryRest, eq_comm]
  | cons t rest =>
    rw [binaryRest]
    cases hop : operator? level t.token with
    | none => simp [hop, eq_comm]
    | some op =>
      simp only [bind_eq_ok]
      constructor
      · rintro ⟨⟨x, ts₁⟩, hx, h⟩
        exact Or.inr ⟨t, rest, op, x, ts₁, rfl, hop, hx, h⟩
      · rintro (⟨h, _⟩ | ⟨_, _, op', x, ts₁, heq, hop', hx, h⟩)
        · simp [h t rest rfl] at hop
        · cases heq
          obtain rfl : op = op' := Option.some.inj (hop.symm.trans hop')
          exact ⟨(x, ts₁), hx, h⟩

def prefixed? : Token → Option (Expr → Expr)
  | .awaitWord => some .await
  | .minus => some (.unary .negate)
  | .plus => some (.unary .plus)
  | .bang => some (.unary .not)
  | _ => none

theorem unary_eq_ok : unary template (n + 1) ts = .ok (e, r) ↔
    (∃ t p rest f x, ts = ⟨t, p⟩ :: rest ∧ prefixed? t = some f ∧ unary template n rest = .ok (x, r) ∧ e = f x) ∨
    (∀ t p rest, ts = ⟨t, p⟩ :: rest → prefixed? t = none) ∧
      ∃ x ts₁, primary template n ts = .ok (x, ts₁) ∧ suffixes template n x ts₁ = .ok (e, r) := by
  have hstarts : ∀ {t p rest} {f : Expr → Expr}, prefixed? t = some f →
      unary template (n + 1) (⟨t, p⟩ :: rest) = (unary template n rest).map fun r => (f r.1, r.2) := by
    intro t p rest f h
    unfold prefixed? at h
    split at h <;> first | (cases h; rw [unary]) | cases h
  have hoperand : (∀ t p rest, ts = ⟨t, p⟩ :: rest → prefixed? t = none) →
      unary template (n + 1) ts = primary template n ts >>= fun r => suffixes template n r.1 r.2 := by
    intro h
    rw [unary.eq_def]
    simp only
    split
    · exact absurd (h _ _ _ rfl) (by simp [prefixed?])
    · exact absurd (h _ _ _ rfl) (by simp [prefixed?])
    · exact absurd (h _ _ _ rfl) (by simp [prefixed?])
    · exact absurd (h _ _ _ rfl) (by simp [prefixed?])
    · rfl
  by_cases h : ∀ t p rest, ts = ⟨t, p⟩ :: rest → prefixed? t = none
  · rw [hoperand h, bind_eq_ok]
    constructor
    · rintro ⟨⟨x, ts₁⟩, hx, hs⟩
      exact Or.inr ⟨h, x, ts₁, hx, hs⟩
    · rintro (⟨t, p, rest, f, x, rfl, hf, _⟩ | ⟨_, x, ts₁, hx, hs⟩)
      · simp [h t p rest rfl] at hf
      · exact ⟨(x, ts₁), hx, hs⟩
  · obtain ⟨t, h⟩ := Classical.not_forall.1 h
    obtain ⟨p, h⟩ := Classical.not_forall.1 h
    obtain ⟨rest, h⟩ := Classical.not_forall.1 h
    obtain ⟨hts, hne⟩ := Classical.not_imp.1 h
    subst hts
    obtain ⟨f, hf⟩ := Option.ne_none_iff_exists'.1 hne
    rw [hstarts hf, map_eq_ok]
    constructor
    · rintro ⟨⟨x, ts₁⟩, hx, heq⟩
      cases heq
      exact Or.inl ⟨t, p, rest, f, x, rfl, hf, hx, rfl⟩
    · rintro (⟨t', p', rest', g, x, heq, hg, hx, rfl⟩ | ⟨h', _⟩)
      · cases heq
        obtain rfl : f = g := Option.some.inj (hf.symm.trans hg)
        exact ⟨(x, r), hx, rfl⟩
      · simp [h' t p rest rfl] at hf

/-- The tokens that can stand behind an operand and belong to it. -/
def isSuffix (t : Token) : Prop := t = .leftParen ∨ t = .dot ∨ t = .leftBracket

theorem suffixes_eq_ok {x : Expr} : suffixes template (n + 1) x ts = .ok (e, r) ↔
    (∀ t p rest, ts = ⟨t, p⟩ :: rest → ¬isSuffix t) ∧ e = x ∧ r = ts ∨
    (∃ p rest args ts₁, ts = ⟨.leftParen, p⟩ :: rest ∧
      arguments template n .rightParen .unclosedArguments rest = .ok (args, ts₁) ∧
      suffixes template n (.call x args) ts₁ = .ok (e, r)) ∨
    (∃ p q name rest, ts = ⟨.dot, p⟩ :: ⟨.identifier name, q⟩ :: rest ∧
      suffixes template n (.member x name) rest = .ok (e, r)) ∨
    ∃ p rest index q ts₁, ts = ⟨.leftBracket, p⟩ :: rest ∧
      ternary template n rest = .ok (index, ⟨.rightBracket, q⟩ :: ts₁) ∧
      suffixes template n (.index x index) ts₁ = .ok (e, r) := by
  rw [suffixes.eq_def]
  simp only
  split
  · rename_i p rest
    simp only [bind_eq_ok]
    constructor
    · rintro ⟨⟨args, ts₁⟩, ha, hs⟩
      exact Or.inr (Or.inl ⟨p, rest, args, ts₁, rfl, ha, hs⟩)
    · rintro (⟨h, _⟩ | ⟨_, _, args, ts₁, heq, ha, hs⟩ | ⟨_, _, _, _, heq, _⟩ | ⟨_, _, _, _, _, heq, _⟩)
      · exact absurd (Or.inl rfl) (h _ _ _ rfl)
      · cases heq
        exact ⟨(args, ts₁), ha, hs⟩
      · cases heq
      · cases heq
  · rename_i p rest
    simp only [bind_eq_ok]
    constructor
    · rintro ⟨⟨name, ts₁⟩, hn, hs⟩
      obtain ⟨q, rfl⟩ := nameAfter_eq_ok.1 hn
      exact Or.inr (Or.inr (Or.inl ⟨p, q, name, ts₁, rfl, hs⟩))
    · rintro (⟨h, _⟩ | ⟨_, _, _, _, heq, _⟩ | ⟨_, q, name, ts₁, heq, hs⟩ | ⟨_, _, _, _, _, heq, _⟩)
      · exact absurd (Or.inr (Or.inl rfl)) (h _ _ _ rfl)
      · cases heq
      · cases heq
        exact ⟨(name, ts₁), nameAfter_eq_ok.2 ⟨q, rfl⟩, hs⟩
      · cases heq
  · rename_i p rest
    simp only [bind_eq_ok, expect_eq_ok]
    constructor
    · rintro ⟨⟨index, ts₂⟩, hi, ts₁, ⟨q, rfl⟩, hs⟩
      exact Or.inr (Or.inr (Or.inr ⟨p, rest, index, q, ts₁, rfl, hi, hs⟩))
    · rintro (⟨h, _⟩ | ⟨_, _, _, _, heq, _⟩ | ⟨_, _, _, _, heq, _⟩ | ⟨_, _, index, q, ts₁, heq, hi, hs⟩)
      · exact absurd (Or.inr (Or.inr rfl)) (h _ _ _ rfl)
      · cases heq
      · cases heq
      · cases heq
        exact ⟨(index, _), hi, ts₁, ⟨q, rfl⟩, hs⟩
  · rename_i hparen hdot hbracket
    constructor
    · intro h
      cases h
      refine Or.inl ⟨?_, rfl, rfl⟩
      rintro t p rest rfl (rfl | rfl | rfl)
      · exact hparen _ _ rfl
      · exact hdot _ _ rfl
      · exact hbracket _ _ rfl
    · rintro (⟨_, rfl, rfl⟩ | ⟨p, rest, _, _, rfl, _⟩ | ⟨p, q, name, rest, rfl, _⟩ | ⟨p, rest, _, _, _, rfl, _⟩)
      · rfl
      · exact absurd rfl (hparen _ _)
      · exact absurd rfl (hdot _ _)
      · exact absurd rfl (hbracket _ _)

theorem arguments_eq_ok {close : Token} {unclosed : Token → SyntaxFault} {es : List Expr} :
    arguments template (n + 1) close unclosed ts = .ok (es, r) ↔
    (∃ p, ts = ⟨close, p⟩ :: r ∧ es = []) ∨
    (∃ t rest x ts₁, ts = t :: rest ∧ t.token ≠ close ∧ ternary template n ts = .ok (x, ts₁) ∧
      ((∃ p ts₂ xs, ts₁ = ⟨.comma, p⟩ :: ts₂ ∧ arguments template n close unclosed ts₂ = .ok (xs, r) ∧ es = x :: xs) ∨
      (∀ p ts₂, ts₁ ≠ ⟨.comma, p⟩ :: ts₂) ∧ ∃ p, ts₁ = ⟨close, p⟩ :: r ∧ es = [x])) := by
  cases ts with
  | nil => simp [arguments, fault_ne_ok]
  | cons t rest =>
    obtain ⟨t, q⟩ := t
    rw [arguments]
    by_cases ht : t = close
    · subst ht
      simp only [if_true]
      constructor
      · intro h
        cases h
        exact Or.inl ⟨q, rfl, rfl⟩
      · rintro (⟨p, heq, rfl⟩ | ⟨_, _, _, _, heq, hne, _⟩)
        · cases heq
          rfl
        · cases heq
          exact absurd rfl hne
    · simp only [if_neg ht, bind_eq_ok]
      constructor
      · rintro ⟨⟨x, ts₁⟩, hx, h⟩
        refine Or.inr ⟨_, _, x, ts₁, rfl, ht, hx, ?_⟩
        split at h
        · rename_i p ts₂ heq
          obtain ⟨⟨xs, ts₃⟩, hxs, h⟩ := bind_eq_ok.1 h
          cases h
          exact Or.inl ⟨p, ts₂, xs, heq, hxs, rfl⟩
        · rename_i hcomma
          obtain ⟨ts₂, hts₂, h⟩ := bind_eq_ok.1 h
          cases h
          obtain ⟨p, hp⟩ := expect_eq_ok.1 hts₂
          exact Or.inr ⟨fun p ts₂ heq => hcomma p ts₂ heq, p, hp, rfl⟩
      · rintro (⟨p, heq, _⟩ | ⟨_, _, x, ts₁, heq, _, hx, h⟩)
        · cases heq
          exact absurd rfl ht
        · refine ⟨(x, ts₁), hx, ?_⟩
          rcases h with ⟨p, ts₂, xs, rfl, hxs, rfl⟩ | ⟨hcomma, p, rfl, rfl⟩
          · simp only [bind_eq_ok]
            exact ⟨(xs, r), hxs, rfl⟩
          · simp only
            exact bind_eq_ok.2 ⟨r, expect_eq_ok.2 ⟨p, rfl⟩, rfl⟩

def atom? : Token → Option Expr
  | .number x => some (.number x)
  | .string s => some (.string s)
  | .trueWord => some (.boolean true)
  | .falseWord => some (.boolean false)
  | .nullWord => some .null
  | .thisWord => some .self
  | .identifier name => some (.identifier name)
  | _ => none

theorem primary_eq_ok : primary template (n + 1) ts = .ok (e, r) ↔
    (∃ t p, ts = ⟨t, p⟩ :: r ∧ atom? t = some e) ∨
    (∃ raw p parts, ts = ⟨.template raw, p⟩ :: r ∧ template raw = .ok parts ∧ e = .template parts) ∨
    (∃ p rest q, ts = ⟨.leftParen, p⟩ :: rest ∧ ternary template n rest = .ok (e, ⟨.rightParen, q⟩ :: r)) ∨
    ∃ p rest items, ts = ⟨.leftBracket, p⟩ :: rest ∧
      arguments template n .rightBracket .unclosedItems rest = .ok (items, r) ∧ e = .array items := by
  cases ts with
  | nil => simp [primary, fault_ne_ok]
  | cons t rest =>
    obtain ⟨t, p⟩ := t
    cases t
    case template raw =>
      simp only [primary, map_eq_ok]
      constructor
      · rintro ⟨parts, hparts, heq⟩
        cases heq
        exact Or.inr (Or.inl ⟨raw, p, parts, rfl, hparts, rfl⟩)
      · rintro (⟨t, q, heq, ht⟩ | ⟨raw', q, parts, heq, hparts, rfl⟩ | ⟨q, _, _, heq, _⟩ | ⟨q, _, _, heq, _⟩)
        all_goals cases heq
        · cases ht
        · exact ⟨parts, hparts, rfl⟩
    case leftParen =>
      simp only [primary, bind_eq_ok, expect_eq_ok]
      constructor
      · rintro ⟨⟨e', ts₁⟩, he, ts₂, ⟨q, hq⟩, heq⟩
        cases heq
        simp only at hq
        exact Or.inr (Or.inr (Or.inl ⟨p, rest, q, rfl, hq ▸ he⟩))
      · rintro (⟨t, q, heq, ht⟩ | ⟨raw', q, parts, heq, _⟩ | ⟨q, _, q', heq, he⟩ | ⟨q, _, _, heq, _⟩)
        all_goals cases heq
        · cases ht
        · exact ⟨_, he, r, ⟨q', rfl⟩, rfl⟩
    case leftBracket =>
      simp only [primary, map_eq_ok]
      constructor
      · rintro ⟨⟨items, ts₁⟩, hitems, heq⟩
        cases heq
        exact Or.inr (Or.inr (Or.inr ⟨p, rest, items, rfl, hitems, rfl⟩))
      · rintro (⟨t, q, heq, ht⟩ | ⟨raw', q, parts, heq, _⟩ | ⟨q, _, _, heq, _⟩ | ⟨q, _, items, heq, hitems, rfl⟩)
        all_goals cases heq
        · cases ht
        · exact ⟨_, hitems, rfl⟩
    all_goals simp [primary, atom?, fault_ne_ok, and_assoc, and_comm]

/-- The tokens that a statement ends before. -/
def endsStatement (t : Token) : Prop := t = .eof ∨ t = .newline ∨ t = .semicolon

theorem statements_eq_ok {ps : Program} : statements template (n + 1) ts = .ok ps ↔
    (ts = [] ∨ ∃ p rest, ts = ⟨.eof, p⟩ :: rest) ∧ ps = [] ∨
    (∃ t p rest, ts = ⟨t, p⟩ :: rest ∧ (t = .newline ∨ t = .semicolon) ∧ statements template n rest = .ok ps) ∨
    ∃ t p rest s r ps', ts = ⟨t, p⟩ :: rest ∧ ¬endsStatement t ∧ statement template ts = .ok (s, r) ∧
      (∀ t p rest, r = ⟨t, p⟩ :: rest → endsStatement t) ∧ statements template n r = .ok ps' ∧ ps = s :: ps' := by
  rw [statements.eq_def]
  simp only
  split
  · constructor
    · intro h
      cases h
      exact Or.inl ⟨Or.inl rfl, rfl⟩
    · rintro (⟨_, rfl⟩ | ⟨_, _, _, heq, _⟩ | ⟨_, _, _, _, _, _, heq, _⟩)
      · rfl
      all_goals cases heq
  · rename_i p rest
    constructor
    · intro h
      cases h
      exact Or.inl ⟨Or.inr ⟨p, rest, rfl⟩, rfl⟩
    · rintro (⟨_, rfl⟩ | ⟨_, _, _, heq, ht | ht, _⟩ | ⟨_, _, _, _, _, _, heq, ht, _⟩)
      · rfl
      all_goals cases heq
      · cases ht
      · cases ht
      · exact absurd (Or.inl rfl) ht
  · rename_i p rest
    constructor
    · intro h
      exact Or.inr (Or.inl ⟨_, p, rest, rfl, Or.inl rfl, h⟩)
    · rintro (⟨heq | ⟨_, _, heq⟩, _⟩ | ⟨_, _, _, heq, _, h⟩ | ⟨_, _, _, _, _, _, heq, ht, _⟩)
      all_goals cases heq
      · exact h
      · exact absurd (Or.inr (Or.inl rfl)) ht
  · rename_i p rest
    constructor
    · intro h
      exact Or.inr (Or.inl ⟨_, p, rest, rfl, Or.inr rfl, h⟩)
    · rintro (⟨heq | ⟨_, _, heq⟩, _⟩ | ⟨_, _, _, heq, _, h⟩ | ⟨_, _, _, _, _, _, heq, ht, _⟩)
      all_goals cases heq
      · exact h
      · exact absurd (Or.inr (Or.inr rfl)) ht
  · rename_i hnil heof hnewline hsemicolon
    rw [bind_eq_ok]
    constructor
    · rintro ⟨⟨s, r⟩, hs, h⟩
      obtain ⟨⟨t, p⟩, rest, rfl⟩ := List.exists_cons_of_ne_nil hnil
      have ht : ¬endsStatement t := by
        rintro (rfl | rfl | rfl)
        · exact heof _ _ rfl
        · exact hnewline _ _ rfl
        · exact hsemicolon _ _ rfl
      simp only at h
      split at h
      all_goals first
        | exact absurd h (fault_ne_ok _ _ _)
        | obtain ⟨ps', hps, h⟩ := bind_eq_ok.1 h
          cases h
          refine Or.inr (Or.inr ⟨t, p, rest, s, _, ps', rfl, ht, hs, ?_, hps, rfl⟩)
          rintro t p rest heq
          cases heq <;> simp [endsStatement]
    · rintro (⟨rfl | ⟨p, rest, rfl⟩, _⟩ | ⟨t, p, rest, rfl, rfl | rfl, _⟩ | ⟨t, p, rest, s, r, ps', rfl, ht, hs, hr, hps, rfl⟩)
      · exact absurd rfl hnil
      · exact absurd rfl (heof _ _)
      · exact absurd rfl (hnewline _ _)
      · exact absurd rfl (hsemicolon _ _)
      · refine ⟨(s, r), hs, ?_⟩
        have hmore : (do return s :: (← statements template n r)) = Except.ok (s :: ps') :=
          bind_eq_ok.2 ⟨ps', hps, rfl⟩
        cases r with
        | nil => exact hmore
        | cons t r =>
          obtain ⟨t, q⟩ := t
          rcases hr t q r rfl with rfl | rfl | rfl <;> exact hmore

end LiveSheet.Parser
