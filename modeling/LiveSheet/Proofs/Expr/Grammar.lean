import LiveSheet.Proofs.Expr.Descent

/-! The grammar of expressions, from loosest to tightest: the conditional, six levels of binary operators, the operators
in front of an operand, the calls, members and indices behind it, and the primaries. The descent reads exactly the
phrases of this grammar, and no list of tokens is a phrase in two ways.

Both directions go through the functions of the descent one by one. What is read is a phrase: that is an induction on
the bound of the calls. A phrase is read, whatever stands behind it that could not continue it: that is an induction on
the phrase, in which an operand on the left is read together with what its level makes of the rest. -/

namespace LiveSheet.Parser

/-- The kinds of phrases. Level 6 of the binary operators has none: its phrases are those with operators in front. -/
inductive Stratum where
  | ternary
  | binary (level : Nat)
  | prefixed
  | suffixed
  | primary

/-- The binary operators and their levels. -/
inductive Joins : Nat → Token → BinaryOp → Prop
  | or : Joins 0 .orOr .or
  | and : Joins 1 .andAnd .and
  | equal : Joins 2 .equal .equal
  | notEqual : Joins 2 .notEqual .notEqual
  | less : Joins 3 .less .less
  | lessEqual : Joins 3 .lessEqual .lessEqual
  | greater : Joins 3 .greater .greater
  | greaterEqual : Joins 3 .greaterEqual .greaterEqual
  | add : Joins 4 .plus .add
  | subtract : Joins 4 .minus .subtract
  | multiply : Joins 5 .star .multiply
  | divide : Joins 5 .slash .divide
  | remainder : Joins 5 .percent .remainder

/-- The tokens are those of the items with commas between them. One comma may stand behind the last. -/
def Listed (items : List (List Token)) (ts : List Token) : Prop :=
  ts = [.comma].intercalate items ∨ items ≠ [] ∧ ts = [.comma].intercalate items ++ [.comma]

/-- The tokens are a phrase of a kind, and the expression is what they stand for. A template stands for the parts that
`template` splits it into. -/
inductive Derives (template : String → Except SheetError (List (Part Expr))) : Stratum → List Token → Expr → Prop
  | simple {ts : List Token} {e : Expr} : Derives template (.binary 0) ts e → Derives template .ternary ts e
  | choice {cs as bs : List Token} {c a b : Expr} (i j k : Nat) : Derives template (.binary 0) cs c →
      Derives template .ternary as a → Derives template .ternary bs b →
      Derives template .ternary
        (cs ++ .question :: (newlines i ++ (as ++ (newlines j ++ .colon :: (newlines k ++ bs)))))
        (.ternary c a b)
  | operand {level : Nat} {ts : List Token} {e : Expr} : level < 6 → Derives template (.binary (level + 1)) ts e →
      Derives template (.binary level) ts e
  | join {level : Nat} {ls rs : List Token} {l r : Expr} {t : Token} {op : BinaryOp} (i : Nat) : Joins level t op →
      Derives template (.binary level) ls l → Derives template (.binary (level + 1)) rs r →
      Derives template (.binary level) (ls ++ t :: (newlines i ++ rs)) (.binary op l r)
  | tight {ts : List Token} {e : Expr} : Derives template .prefixed ts e → Derives template (.binary 6) ts e
  | await {ts : List Token} {e : Expr} : Derives template .prefixed ts e →
      Derives template .prefixed (.awaitWord :: ts) (.await e)
  | negate {ts : List Token} {e : Expr} : Derives template .prefixed ts e →
      Derives template .prefixed (.minus :: ts) (.unary .negate e)
  | plus {ts : List Token} {e : Expr} : Derives template .prefixed ts e →
      Derives template .prefixed (.plus :: ts) (.unary .plus e)
  | not {ts : List Token} {e : Expr} : Derives template .prefixed ts e →
      Derives template .prefixed (.bang :: ts) (.unary .not e)
  | bare {ts : List Token} {e : Expr} : Derives template .suffixed ts e → Derives template .prefixed ts e
  | call {fs as : List Token} {f : Expr} {args : List (List Token × Expr)} : Derives template .suffixed fs f →
      (∀ arg ∈ args, Derives template .ternary arg.1 arg.2) → Listed (args.map Prod.fst) as →
      Derives template .suffixed (fs ++ .leftParen :: (as ++ [.rightParen])) (.call f (args.map Prod.snd))
  | member {os : List Token} {o : Expr} {name : String} : Derives template .suffixed os o →
      Derives template .suffixed (os ++ [.dot, .identifier name]) (.member o name)
  | index {os is : List Token} {o i : Expr} : Derives template .suffixed os o → Derives template .ternary is i →
      Derives template .suffixed (os ++ .leftBracket :: (is ++ [.rightBracket])) (.index o i)
  | operandOnly {ts : List Token} {e : Expr} : Derives template .primary ts e → Derives template .suffixed ts e
  | number (x : Float) : Derives template .primary [.number x] (.number x)
  | string (s : String) : Derives template .primary [.string s] (.string s)
  | true : Derives template .primary [.trueWord] (.boolean true)
  | false : Derives template .primary [.falseWord] (.boolean false)
  | null : Derives template .primary [.nullWord] .null
  | this : Derives template .primary [.thisWord] .self
  | identifier (name : String) : Derives template .primary [.identifier name] (.identifier name)
  | template {raw : String} {parts : List (Part Expr)} : template raw = .ok parts →
      Derives template .primary [.template raw] (.template parts)
  | group {ts : List Token} {e : Expr} : Derives template .ternary ts e →
      Derives template .primary (.leftParen :: (ts ++ [.rightParen])) e
  | array {ts : List Token} {items : List (List Token × Expr)} :
      (∀ item ∈ items, Derives template .ternary item.1 item.2) → Listed (items.map Prod.fst) ts →
      Derives template .primary (.leftBracket :: (ts ++ [.rightBracket])) (.array (items.map Prod.snd))

variable {template : String → Except SheetError (List (Part Expr))} {n level : Nat} {t : Token} {op : BinaryOp}
  {ts r : Tokens} {e : Expr}

theorem joins_iff : Joins level t op ↔ operator? level t = some op := by
  constructor
  · intro h
    cases h <;> rfl
  · intro h
    unfold operator? at h
    split at h <;> cases h <;> constructor

theorem Joins.lt (h : Joins level t op) : level < 6 := by
  cases h <;> decide

theorem Listed.cons {items : List (List Token)} {ts : List Token} (h : Listed items ts) (us : List Token) :
    Listed (us :: items) (us ++ .comma :: ts) := by
  rcases h with rfl | ⟨hne, rfl⟩
  · cases items with
    | nil => exact .inr ⟨List.cons_ne_nil _ _, by simp⟩
    | cons item items => exact .inl (by rw [List.intercalate_cons_cons]; simp)
  · obtain ⟨item, items, rfl⟩ := List.exists_cons_of_ne_nil hne
    exact .inr ⟨List.cons_ne_nil _ _, by rw [List.intercalate_cons_cons]; simp⟩

theorem derives_atom (h : atom? t = some e) : Derives template .primary [t] e := by
  unfold atom? at h
  split at h <;> cases h <;> constructor

/-! What is read is a phrase. -/

/-- The tokens up to `r` are a phrase of the expression. -/
def Takes (template : String → Except SheetError (List (Part Expr))) (s : Stratum) (ts : Tokens) (e : Expr)
    (r : Tokens) :
    Prop :=
  ∃ us : Tokens, ts = us ++ r ∧ Derives template s (us.map (·.token)) e

/-- The tokens up to a closing one are items, and the expressions are what they stand for. -/
def TakesItems (template : String → Except SheetError (List (Part Expr))) (close : Token) (ts : Tokens) (es : List Expr)
    (r : Tokens) : Prop :=
  ∃ (us : Tokens) (items : List (List Token × Expr)) (p : Position), ts = us ++ ⟨close, p⟩ :: r ∧
    Listed (items.map Prod.fst) (us.map (·.token)) ∧ es = items.map Prod.snd ∧
    ∀ item ∈ items, Derives template .ternary item.1 item.2

/-- What the functions of the descent read within a bound is a phrase. The two that continue an operand make a longer
phrase of it. -/
structure Sound (template : String → Except SheetError (List (Part Expr))) (n : Nat) : Prop where
  ternary {ts r : Tokens} {e : Expr} : ternary template n ts = .ok (e, r) → Takes template .ternary ts e r
  binary {level : Nat} {ts r : Tokens} {e : Expr} : level ≤ 6 → binary template n level ts = .ok (e, r) →
    Takes template (.binary level) ts e r
  binaryRest {level : Nat} {us ts r : Tokens} {l e : Expr} : Derives template (.binary level) (us.map (·.token)) l →
    binaryRest template n level l ts = .ok (e, r) → Takes template (.binary level) (us ++ ts) e r
  unary {ts r : Tokens} {e : Expr} : unary template n ts = .ok (e, r) → Takes template .prefixed ts e r
  suffixes {us ts r : Tokens} {l e : Expr} : Derives template .suffixed (us.map (·.token)) l →
    suffixes template n l ts = .ok (e, r) → Takes template .suffixed (us ++ ts) e r
  arguments {close : Token} {unclosed : Token → SyntaxFault} {ts r : Tokens} {es : List Expr} :
    arguments template n close unclosed ts = .ok (es, r) → TakesItems template close ts es r
  primary {ts r : Tokens} {e : Expr} : primary template n ts = .ok (e, r) → Takes template .primary ts e r

section

variable (ih : Sound template n)
include ih

theorem ternary_takes (h : ternary template (n + 1) ts = .ok (e, r)) : Takes template .ternary ts e r := by
  obtain ⟨c, ts₁, hc, ⟨_, rfl, rfl⟩ | ⟨p, ts₂, a, ts₃, q, ts₄, b, rfl, ha, hcolon, hb, rfl⟩⟩ := ternary_eq_ok.1 h
  · obtain ⟨us, rfl, hus⟩ := ih.binary (Nat.zero_le 6) hc
    exact ⟨us, rfl, .simple hus⟩
  · obtain ⟨cs, rfl, hcs⟩ := ih.binary (Nat.zero_le 6) hc
    obtain ⟨as, has, hastokens⟩ := ih.ternary ha
    obtain ⟨bs, hbs, hbstokens⟩ := ih.ternary hb
    obtain ⟨gap₁, i, hgap₁, hi⟩ := skipNewlines_eq ts₂
    obtain ⟨gap₂, j, hgap₂, hj⟩ := skipNewlines_eq ts₃
    obtain ⟨gap₃, k, hgap₃, hk⟩ := skipNewlines_eq ts₄
    refine ⟨cs ++ ⟨.question, p⟩ :: (gap₁ ++ (as ++ (gap₂ ++ ⟨.colon, q⟩ :: (gap₃ ++ bs)))), ?_, ?_⟩
    · rw [hgap₁, has, hgap₂, hcolon, hgap₃, hbs]
      simp only [List.append_assoc, List.cons_append]
    · simp only [List.map_append, List.map_cons, hi, hj, hk]
      exact .choice i j k hcs hastokens hbstokens

theorem binary_takes (hlevel : level ≤ 6) (h : binary template (n + 1) level ts = .ok (e, r)) :
    Takes template (.binary level) ts e r := by
  by_cases hlt : level < levels
  · obtain ⟨l, ts₁, hl, hrest⟩ := (binary_eq_ok hlt).1 h
    obtain ⟨us, rfl, hus⟩ := ih.binary hlt hl
    exact ih.binaryRest (.operand hlt hus) hrest
  · obtain rfl : level = 6 := Nat.le_antisymm hlevel (Nat.not_lt.1 hlt)
    rw [binary_levels hlt] at h
    obtain ⟨us, rfl, hus⟩ := ih.unary h
    exact ⟨us, rfl, .tight hus⟩

theorem binaryRest_takes {us : Tokens} {l : Expr} (hl : Derives template (.binary level) (us.map (·.token)) l)
    (h : binaryRest template (n + 1) level l ts = .ok (e, r)) : Takes template (.binary level) (us ++ ts) e r := by
  rcases binaryRest_eq_ok.1 h with ⟨_, rfl, rfl⟩ | ⟨⟨t, p⟩, rest, op, x, ts₁, rfl, hop, hx, hrest⟩
  · exact ⟨us, rfl, hl⟩
  · have hjoins := joins_iff.2 hop
    obtain ⟨gap, i, hgap, hi⟩ := skipNewlines_eq rest
    obtain ⟨xs, hxs, hxstokens⟩ := ih.binary hjoins.lt hx
    have hjoined : Derives template (.binary level) ((us ++ ⟨t, p⟩ :: (gap ++ xs)).map (·.token)) (.binary op l x) := by
      simp only [List.map_append, List.map_cons, hi]
      exact .join i hjoins hl hxstokens
    have htakes := ih.binaryRest hjoined hrest
    rwa [List.append_assoc, List.cons_append, List.append_assoc, ← hxs, ← hgap] at htakes

theorem unary_takes (h : unary template (n + 1) ts = .ok (e, r)) : Takes template .prefixed ts e r := by
  rcases unary_eq_ok.1 h with ⟨t, p, rest, f, x, rfl, hf, hx, rfl⟩ | ⟨_, x, ts₁, hx, hs⟩
  · obtain ⟨us, rfl, hus⟩ := ih.unary hx
    refine ⟨⟨t, p⟩ :: us, rfl, ?_⟩
    rw [List.map_cons]
    unfold prefixed? at hf
    split at hf
    · cases hf
      exact .await hus
    · cases hf
      exact .negate hus
    · cases hf
      exact .plus hus
    · cases hf
      exact .not hus
    · cases hf
  · obtain ⟨us, rfl, hus⟩ := ih.primary hx
    obtain ⟨vs, hvs, hvstokens⟩ := ih.suffixes (.operandOnly hus) hs
    exact ⟨vs, hvs, .bare hvstokens⟩

theorem suffixes_takes {us : Tokens} {l : Expr} (hl : Derives template .suffixed (us.map (·.token)) l)
    (h : suffixes template (n + 1) l ts = .ok (e, r)) : Takes template .suffixed (us ++ ts) e r := by
  have hlonger : ∀ (vs : Tokens) {rest : Tokens} {l' : Expr}, Derives template .suffixed ((us ++ vs).map (·.token)) l' →
      suffixes template n l' rest = .ok (e, r) → ts = vs ++ rest → Takes template .suffixed (us ++ ts) e r := by
    intro vs rest l' hl' hrest hts
    rw [hts, ← List.append_assoc]
    exact ih.suffixes hl' hrest
  rcases suffixes_eq_ok.1 h with ⟨_, rfl, rfl⟩ | ⟨p, rest, args, ts₁, rfl, hargs, hs⟩ | ⟨p, q, name, rest, rfl, hs⟩ |
    ⟨p, rest, i, q, ts₁, rfl, hi, hs⟩
  · exact ⟨us, rfl, hl⟩
  · obtain ⟨as, items, q, rfl, hlisted, rfl, hitems⟩ := ih.arguments hargs
    refine hlonger (⟨.leftParen, p⟩ :: (as ++ [⟨.rightParen, q⟩])) ?_ hs (by simp)
    simp only [List.map_append, List.map_cons, List.map_nil]
    exact .call hl hitems hlisted
  · refine hlonger [⟨.dot, p⟩, ⟨.identifier name, q⟩] ?_ hs rfl
    rw [List.map_append]
    exact .member hl
  · obtain ⟨is, rfl, his⟩ := ih.ternary hi
    refine hlonger (⟨.leftBracket, p⟩ :: (is ++ [⟨.rightBracket, q⟩])) ?_ hs (by simp)
    simp only [List.map_append, List.map_cons, List.map_nil]
    exact .index hl his

theorem arguments_takes {close : Token} {unclosed : Token → SyntaxFault} {es : List Expr}
    (h : arguments template (n + 1) close unclosed ts = .ok (es, r)) : TakesItems template close ts es r := by
  rcases arguments_eq_ok.1 h with ⟨p, rfl, rfl⟩ | ⟨_, _, x, ts₁, _, _, hx, hrest⟩
  · exact ⟨[], [], p, rfl, .inl rfl, rfl, List.forall_mem_nil _⟩
  · obtain ⟨us, rfl, hus⟩ := ih.ternary hx
    rcases hrest with ⟨p, ts₂, xs, rfl, hxs, rfl⟩ | ⟨_, p, rfl, rfl⟩
    · obtain ⟨vs, items, q, rfl, hlisted, rfl, hitems⟩ := ih.arguments hxs
      refine ⟨us ++ ⟨.comma, p⟩ :: vs, (us.map (·.token), x) :: items, q, by simp, ?_, rfl,
        List.forall_mem_cons.2 ⟨hus, hitems⟩⟩
      simp only [List.map_append, List.map_cons]
      exact hlisted.cons _
    · exact ⟨us, [(us.map (·.token), x)], p, rfl, .inl (by simp), rfl, List.forall_mem_singleton.2 hus⟩

theorem primary_takes (h : primary template (n + 1) ts = .ok (e, r)) : Takes template .primary ts e r := by
  rcases primary_eq_ok.1 h with ⟨t, p, rfl, ht⟩ | ⟨raw, p, parts, rfl, hparts, rfl⟩ | ⟨p, rest, q, rfl, hinner⟩ |
    ⟨p, rest, items, rfl, hitems, rfl⟩
  · exact ⟨[⟨t, p⟩], rfl, derives_atom ht⟩
  · exact ⟨[⟨.template raw, p⟩], rfl, .template hparts⟩
  · obtain ⟨us, rfl, hus⟩ := ih.ternary hinner
    refine ⟨⟨.leftParen, p⟩ :: (us ++ [⟨.rightParen, q⟩]), by simp, ?_⟩
    simp only [List.map_append, List.map_cons, List.map_nil]
    exact .group hus
  · obtain ⟨us, items, q, rfl, hlisted, rfl, hphrases⟩ := ih.arguments hitems
    refine ⟨⟨.leftBracket, p⟩ :: (us ++ [⟨.rightBracket, q⟩]), by simp, ?_⟩
    simp only [List.map_append, List.map_cons, List.map_nil]
    exact .array hphrases hlisted

end

theorem sound (template : String → Except SheetError (List (Part Expr))) (n : Nat) : Sound template n := by
  induction n with
  | zero =>
    refine ⟨fun h => ?_, fun _ h => ?_, fun _ h => ?_, fun h => ?_, fun _ h => ?_, fun h => ?_, fun h => ?_⟩
    all_goals exact absurd h (fault_ne_ok _ _ _)
  | succ n ih =>
    exact ⟨ternary_takes ih, binary_takes ih, binaryRest_takes ih, unary_takes ih, suffixes_takes ih,
      arguments_takes ih,
      primary_takes ih⟩

/-! A phrase is read. -/

/-- No token at the start that would belong to a phrase of the level in front of it. -/
def Stops (level : Nat) (rest : Tokens) : Prop :=
  ∀ t p ts, rest = ⟨t, p⟩ :: ts → ¬isSuffix t ∧ ∀ l, level ≤ l → operator? l t = none

theorem Stops.mono {level' : Nat} {rest : Tokens} (h : Stops level rest) (hle : level ≤ level') : Stops level' rest :=
  fun t p ts heq => ⟨(h t p ts heq).1, fun l hl => (h t p ts heq).2 l (Nat.le_trans hle hl)⟩

theorem stops_of_joins {p : Position} (h : Joins level t op) : Stops (level + 1) (⟨t, p⟩ :: ts) := by
  rintro t' p' ts' heq
  cases heq
  refine ⟨?_, fun l hl => ?_⟩
  · rintro (rfl | rfl | rfl) <;> cases h
  · cases hop : operator? l t with
    | none => rfl
    | some op' => cases h <;> cases joins_iff.2 hop <;> omega

/-- A token that no phrase goes on with. -/
def isEnd (t : Token) : Prop := t ∈ [Token.colon, .rightParen, .rightBracket, .comma, .semicolon, .newline, .eof]

theorem stops_of_end {p : Position} (h : t = .question ∨ isEnd t) : Stops 0 (⟨t, p⟩ :: ts) := by
  rintro t' p' ts' heq
  cases heq
  have hcases : t ∈ [Token.question, .colon, .rightParen, .rightBracket, .comma, .semicolon, .newline, .eof] :=
    List.mem_cons.2 h
  refine ⟨?_, fun l _ => ?_⟩
  · rintro (rfl | rfl | rfl) <;> simp at hcases
  · cases hop : operator? l t with
    | none => rfl
    | some op => cases joins_iff.2 hop <;> simp at hcases

/-- The rest does not go on with a phrase in front of it. -/
def Ended (rest : Tokens) : Prop := ∃ t p ts, rest = ⟨t, p⟩ :: ts ∧ isEnd t

theorem Ended.stops {rest : Tokens} (h : Ended rest) : Stops 0 rest := by
  obtain ⟨t, p, ts, rfl, ht⟩ := h
  exact stops_of_end (.inr ht)

theorem Ended.ne_question {rest : Tokens} (h : Ended rest) (p : Position) (r : Tokens) :
    rest ≠ ⟨.question, p⟩ :: r := by
  rintro rfl
  obtain ⟨t, p, ts, heq, ht⟩ := h
  cases heq
  simp [isEnd] at ht

theorem ended_append {gap ts : Tokens} {i : Nat} (hgap : gap.map (·.token) = newlines i) (h : Ended ts) :
    Ended (gap ++ ts) := by
  cases gap with
  | nil => exact h
  | cons t gap =>
    have ht : t.token = .newline := by
      cases i with
      | zero => cases hgap
      | succ i => exact (List.cons.inj hgap).1
    exact ⟨t.token, t.position, gap ++ ts, rfl, by simp [isEnd, ht]⟩

/-- The tokens that no phrase starts with: separators, closing brackets and the word of a binding. -/
def isOutside (t : Token) : Prop := t ∈ [Token.newline, .semicolon, .eof, .rightParen, .rightBracket, .letWord]

theorem Derives.begins {s : Stratum} {us : List Token} (h : Derives template s us e) : ∃ t us', us = t :: us' ∧
    ¬isOutside t ∧ (s = .suffixed ∨ s = .primary → prefixed? t = none) := by
  have hbehind : ∀ {us vs : List Token} {s s' : Stratum},
      (s' = .suffixed ∨ s' = .primary → s = .suffixed ∨ s = .primary) →
      (∃ t us', us = t :: us' ∧ ¬isOutside t ∧ (s = .suffixed ∨ s = .primary → prefixed? t = none)) →
      ∃ t us', us ++ vs = t :: us' ∧ ¬isOutside t ∧ (s' = .suffixed ∨ s' = .primary → prefixed? t = none) := by
    rintro us vs s s' hs ⟨t, us', rfl, ht, hfront⟩
    exact ⟨t, us' ++ vs, rfl, ht, fun h => hfront (hs h)⟩
  induction h with
  | simple _ ih => exact ih.imp fun _ => Exists.imp fun _ h => ⟨h.1, h.2.1, by simp⟩
  | operand _ _ ih => exact ih.imp fun _ => Exists.imp fun _ h => ⟨h.1, h.2.1, by simp⟩
  | tight _ ih => exact ih.imp fun _ => Exists.imp fun _ h => ⟨h.1, h.2.1, by simp⟩
  | bare _ ih => exact ih.imp fun _ => Exists.imp fun _ h => ⟨h.1, h.2.1, by simp⟩
  | operandOnly _ ih => exact ih.imp fun _ => Exists.imp fun _ h => ⟨h.1, h.2.1, fun _ => h.2.2 (.inr rfl)⟩
  | choice _ _ _ _ _ _ ih _ _ => exact hbehind (by simp) ih
  | join _ _ _ _ ih _ => exact hbehind (by simp) ih
  | call _ _ _ ih _ => exact hbehind (fun _ => .inl rfl) ih
  | member _ ih => exact hbehind (fun _ => .inl rfl) ih
  | index _ _ ih _ => exact hbehind (fun _ => .inl rfl) ih
  | await | negate | plus | not => exact ⟨_, _, rfl, by simp [isOutside], by simp⟩
  | number | string | true | false | null | this | identifier | template | group | array =>
    exact ⟨_, _, rfl, by simp [isOutside], fun _ => rfl⟩

/-- The tokens are read as the expression, whatever stands behind them that could not continue them. Of a binary level
and of what stands behind an operand, the expression is read where the rest makes something of it. -/
def Read (template : String → Except SheetError (List (Part Expr))) (s : Stratum) (us : List Token) (e : Expr) : Prop :=
  ∀ ts rest : Tokens, ts.map (·.token) = us → match s with
    | .ternary => Ended rest → ∀ n, 16 * us.length + 17 ≤ n → ternary template n (ts ++ rest) = .ok (e, rest)
    | .binary level => Stops (level + 1) rest → ∀ k x, (∀ n, k ≤ n → binaryRest template n level e rest = .ok x) →
      ∀ n, k + 16 * us.length + 15 ≤ n + 2 * level → binary template n level (ts ++ rest) = .ok x
    | .prefixed => Stops 6 rest → ∀ n, 16 * us.length + 2 ≤ n → unary template n (ts ++ rest) = .ok (e, rest)
    | .suffixed => ∀ k x, (∀ n, k ≤ n → suffixes template n e rest = .ok x) → ∀ n, k + 16 * us.length ≤ n →
      ∃ y ts₁, primary template n (ts ++ rest) = .ok (y, ts₁) ∧ suffixes template n y ts₁ = .ok x
    | .primary => ∀ n, 16 * us.length ≤ n → primary template n (ts ++ rest) = .ok (e, rest)

theorem skipNewlines_append {gap ts : Tokens} {i : Nat} (hgap : gap.map (·.token) = newlines i)
    (h : ∀ p r, ts ≠ ⟨.newline, p⟩ :: r) : skipNewlines (gap ++ ts) = ts := by
  induction gap generalizing i with
  | nil =>
    rw [List.nil_append, skipNewlines.eq_def]
    split
    · exact absurd rfl (h _ _)
    · rfl
  | cons t gap ih =>
    cases i with
    | zero => cases hgap
    | succ i =>
      obtain ⟨ht, htail⟩ := List.cons.inj hgap
      obtain ⟨t, p⟩ := t
      cases ht
      rw [List.cons_append, skipNewlines]
      exact ih htail

theorem Derives.skipNewlines {s : Stratum} {us : List Token} {gap ts rest : Tokens} {i : Nat}
    (h : Derives template s us e)
    (hgap : gap.map (·.token) = newlines i) (hts : ts.map (·.token) = us) :
    skipNewlines (gap ++ (ts ++ rest)) = ts ++ rest := by
  refine skipNewlines_append hgap fun p r heq => ?_
  obtain ⟨t, us', rfl, ht, _⟩ := h.begins
  obtain ⟨t, ts, rfl, rfl, _⟩ := List.map_eq_cons_iff.1 hts
  cases heq
  exact ht (by simp [isOutside])

theorem binaryRest_stop {rest : Tokens} (h : Stops level rest) (e : Expr) (hn : 1 ≤ n) :
    binaryRest template n level e rest = .ok (e, rest) := by
  obtain ⟨n, rfl⟩ := Nat.exists_eq_add_of_le' hn
  exact binaryRest_eq_ok.2 (.inl ⟨fun t ts heq => (h t.token t.position ts heq).2 level (Nat.le_refl _), rfl, rfl⟩)

theorem suffixes_stop {rest : Tokens} (h : Stops level rest) (e : Expr) (hn : 1 ≤ n) :
    suffixes template n e rest = .ok (e, rest) := by
  obtain ⟨n, rfl⟩ := Nat.exists_eq_add_of_le' hn
  exact suffixes_eq_ok.2 (.inl ⟨fun t p ts heq => (h t p ts heq).1, rfl, rfl⟩)

theorem listed_cons {item us : List Token} {items : List (List Token)} (h : Listed (item :: items) us) :
    items = [] ∧ us = item ∨ ∃ vs, us = item ++ .comma :: vs ∧ Listed items vs := by
  cases items with
  | nil =>
    rcases h with rfl | ⟨_, rfl⟩
    · exact .inl ⟨rfl, by simp⟩
    · exact .inr ⟨[], by simp, .inl rfl⟩
  | cons item' items =>
    rcases h with rfl | ⟨_, rfl⟩
    · exact .inr ⟨_, by rw [List.intercalate_cons_cons, List.append_assoc]; rfl, .inl rfl⟩
    · exact .inr ⟨_, by rw [List.intercalate_cons_cons, List.append_assoc, List.append_assoc]; rfl,
        .inr ⟨List.cons_ne_nil _ _, rfl⟩⟩

/-! One lemma a way of making a phrase. -/

namespace Read

variable {us vs : List Token}

theorem simple (h : Read template (.binary 0) us e) : Read template .ternary us e := by
  intro ts rest hts hended n hn
  obtain ⟨n, rfl⟩ := Nat.exists_eq_add_of_le' (Nat.le_trans (Nat.le_add_left 1 _) hn)
  refine ternary_eq_ok.2 ⟨e, rest, ?_, .inl ⟨hended.ne_question, rfl, rfl⟩⟩
  exact h ts rest hts (hended.stops.mono (Nat.zero_le 1)) 1 (e, rest) (fun k hk => binaryRest_stop hended.stops e hk) n
    (by omega)

theorem choice {ws : List Token} {c a b : Expr} (i j k : Nat) (hc : Read template (.binary 0) us c)
    (ha : Read template .ternary vs a) (hvs : Derives template .ternary vs a) (hb : Read template .ternary ws b)
    (hws : Derives template .ternary ws b) :
    Read template .ternary (us ++ .question :: (newlines i ++ (vs ++ (newlines j ++ .colon :: (newlines k ++ ws)))))
      (.ternary c a b) := by
  intro ts rest hts hended n hn
  obtain ⟨cs, ts, rfl, rfl, hts₁⟩ := List.map_eq_append_iff.1 hts
  obtain ⟨⟨_, p⟩, ts, rfl, rfl, hts₂⟩ := List.map_eq_cons_iff.1 hts₁
  obtain ⟨gap₁, ts, rfl, hgap₁, hts₃⟩ := List.map_eq_append_iff.1 hts₂
  obtain ⟨as, ts, rfl, has, hts₄⟩ := List.map_eq_append_iff.1 hts₃
  obtain ⟨gap₂, ts, rfl, hgap₂, hts₅⟩ := List.map_eq_append_iff.1 hts₄
  obtain ⟨⟨_, q⟩, ts, rfl, rfl, hts₆⟩ := List.map_eq_cons_iff.1 hts₅
  obtain ⟨gap₃, bs, rfl, hgap₃, hbs⟩ := List.map_eq_append_iff.1 hts₆
  simp only [List.length_append, List.length_cons, List.length_map] at hn
  simp only [List.append_assoc, List.cons_append]
  obtain ⟨n, rfl⟩ := Nat.exists_eq_add_of_le' (Nat.le_trans (Nat.le_add_left 1 _) hn)
  have hquestion {r : Tokens} : Stops 0 (⟨.question, p⟩ :: r) := stops_of_end (.inl rfl)
  have hcolon {r : Tokens} : Ended (gap₂ ++ ⟨.colon, q⟩ :: r) :=
    ended_append hgap₂ ⟨.colon, q, r, rfl, by simp [isEnd]⟩
  have hifTrue {r : Tokens} : ternary template n (skipNewlines (gap₁ ++ (as ++ (gap₂ ++ ⟨.colon, q⟩ :: r)))) =
      .ok (a, gap₂ ++ ⟨.colon, q⟩ :: r) := by
    rw [hvs.skipNewlines hgap₁ has]
    exact ha as _ has hcolon n (by omega)
  have hskip {r : Tokens} : skipNewlines (gap₂ ++ ⟨.colon, q⟩ :: r) = ⟨.colon, q⟩ :: r :=
    skipNewlines_append hgap₂ fun p r heq => nomatch heq
  have hifFalse : ternary template n (skipNewlines (gap₃ ++ (bs ++ rest))) = .ok (b, rest) := by
    rw [hws.skipNewlines hgap₃ hbs]
    exact hb bs rest hbs hended n (by omega)
  refine ternary_eq_ok.2 ⟨c, _, ?_, .inr ⟨p, _, a, _, q, _, b, rfl, hifTrue, hskip, hifFalse, rfl⟩⟩
  exact hc cs _ rfl (hquestion.mono (Nat.zero_le 1)) 1 (c, _) (fun k hk => binaryRest_stop hquestion c hk) n
    (by rw [List.length_map]; omega)

theorem operand (hlevel : level < 6) (h : Read template (.binary (level + 1)) us e) :
    Read template (.binary level) us e := by
  intro ts rest hts hstops k x hx n hn
  obtain ⟨n, rfl⟩ : ∃ k, n = k + 1 := ⟨n - 1, by omega⟩
  refine (binary_eq_ok hlevel).2 ⟨e, rest, ?_, hx n (by omega)⟩
  exact h ts rest hts (hstops.mono (Nat.le_succ _)) 1 (e, rest) (fun k hk => binaryRest_stop hstops e hk) n (by omega)

theorem join {l : Expr} (i : Nat) (hop : Joins level t op) (hl : Read template (.binary level) us l)
    (he : Read template (.binary (level + 1)) vs e) (hvs : Derives template (.binary (level + 1)) vs e) :
    Read template (.binary level) (us ++ t :: (newlines i ++ vs)) (.binary op l e) := by
  intro ts rest hts hstops k x hx n hn
  obtain ⟨ls, ts, rfl, hls, hts₁⟩ := List.map_eq_append_iff.1 hts
  obtain ⟨⟨_, p⟩, ts, rfl, rfl, hts₂⟩ := List.map_eq_cons_iff.1 hts₁
  obtain ⟨gap, rs, rfl, hgap, hrs⟩ := List.map_eq_append_iff.1 hts₂
  simp only [List.length_append, List.length_cons] at hn
  simp only [List.append_assoc, List.cons_append]
  refine hl ls _ hls (stops_of_joins hop) (k + 16 * vs.length + 16) x (fun m hm => ?_) n (by omega)
  obtain ⟨m, rfl⟩ : ∃ k, m = k + 1 := ⟨m - 1, by omega⟩
  refine binaryRest_eq_ok.2 (.inr ⟨_, _, op, e, rest, rfl, joins_iff.1 hop, ?_, hx m (by omega)⟩)
  rw [hvs.skipNewlines hgap hrs]
  exact he rs rest hrs (hstops.mono (Nat.le_succ _)) 1 (e, rest) (fun k hk => binaryRest_stop hstops e hk) m (by omega)

theorem tight (h : Read template .prefixed us e) : Read template (.binary 6) us e := by
  intro ts rest hts hstops k x hx n hn
  have hnone : Stops 6 rest := fun t p ts heq => ⟨(hstops t p ts heq).1, fun l hl => by
    cases hop : operator? l t with
    | none => rfl
    | some op => exact absurd (joins_iff.2 hop).lt (Nat.not_lt.2 hl)⟩
  have hrest : binaryRest template (k + 1) 6 e rest = .ok (e, rest) := binaryRest_stop hnone e (Nat.le_add_left 1 k)
  obtain rfl : (e, rest) = x := Except.ok.inj (hrest.symm.trans (hx (k + 1) (Nat.le_succ k)))
  obtain ⟨n, rfl⟩ : ∃ k, n = k + 1 := ⟨n - 1, by omega⟩
  rw [binary_levels (by decide)]
  exact h ts rest hts hnone n (by omega)

theorem front {f : Expr → Expr} (ht : prefixed? t = some f) (h : Read template .prefixed us e) :
    Read template .prefixed (t :: us) (f e) := by
  intro ts rest hts hstops n hn
  obtain ⟨⟨_, p⟩, ts, rfl, rfl, hts₁⟩ := List.map_eq_cons_iff.1 hts
  rw [List.length_cons] at hn
  obtain ⟨n, rfl⟩ : ∃ k, n = k + 1 := ⟨n - 1, by omega⟩
  exact unary_eq_ok.2 (.inl ⟨_, p, _, f, e, rfl, ht, h ts rest hts₁ hstops n (by omega), rfl⟩)

theorem bare (h : Read template .suffixed us e) (hus : Derives template .suffixed us e) :
    Read template .prefixed us e := by
  intro ts rest hts hstops n hn
  obtain ⟨n, rfl⟩ : ∃ k, n = k + 1 := ⟨n - 1, by omega⟩
  refine unary_eq_ok.2 (.inr ⟨?_, h ts rest hts 1 (e, rest) (fun k hk => suffixes_stop hstops e hk) n (by omega)⟩)
  rintro t p r heq
  obtain ⟨t', us', rfl, _, hfront⟩ := hus.begins
  obtain ⟨t', ts', rfl, rfl, _⟩ := List.map_eq_cons_iff.1 hts
  cases heq
  exact hfront (.inl rfl)

theorem arguments {items : List (List Token × Expr)} {close : Token} (unclosed : Token → SyntaxFault)
    (hclose : close = .rightParen ∨ close = .rightBracket)
    (hitems : ∀ item ∈ items, Derives template .ternary item.1 item.2 ∧ Read template .ternary item.1 item.2)
    (hlisted : Listed (items.map Prod.fst) us) {ts : Tokens} (hts : ts.map (·.token) = us) (p : Position)
    (rest : Tokens)
    (hn : 16 * us.length + 18 ≤ n) :
    arguments template n close unclosed (ts ++ ⟨close, p⟩ :: rest) = .ok (items.map Prod.snd, rest) := by
  have hend : isEnd close := by rcases hclose with rfl | rfl <;> simp [isEnd]
  have hcomma : close ≠ .comma := by rcases hclose with rfl | rfl <;> simp
  induction items generalizing us ts n with
  | nil =>
    obtain ⟨n, rfl⟩ : ∃ k, n = k + 1 := ⟨n - 1, by omega⟩
    rcases hlisted with rfl | ⟨hne, _⟩
    · rw [List.map_eq_nil_iff.1 hts]
      exact arguments_eq_ok.2 (.inl ⟨p, rfl, rfl⟩)
    · exact absurd rfl hne
  | cons item items ih =>
    obtain ⟨n, rfl⟩ : ∃ k, n = k + 1 := ⟨n - 1, by omega⟩
    obtain ⟨⟨hderives, hread⟩, hitems⟩ := List.forall_mem_cons.1 hitems
    obtain ⟨t, us', hitem, ht, _⟩ := hderives.begins
    have hfirst : ∀ {xs r : Tokens}, xs.map (·.token) = item.1 → ∃ t rest, xs ++ r = t :: rest ∧ t.token ≠ close := by
      intro xs r hxs
      obtain ⟨x, xs, rfl, rfl, _⟩ := List.map_eq_cons_iff.1 (hxs.trans hitem)
      exact ⟨x, xs ++ r, rfl, by rcases hclose with rfl | rfl <;> exact fun h => ht (by simp [isOutside, h])⟩
    rcases listed_cons hlisted with ⟨hnil, rfl⟩ | ⟨vs, rfl, hvs⟩
    · obtain rfl := List.map_eq_nil_iff.1 hnil
      obtain ⟨x, r, hcons, hx⟩ := hfirst (r := ⟨close, p⟩ :: rest) hts
      refine arguments_eq_ok.2 (.inr ⟨x, r, item.2, _, hcons, hx,
        hread ts _ hts ⟨close, p, rest, rfl, hend⟩ n (by omega), .inr ⟨fun q r heq => ?_, p, rfl, rfl⟩⟩)
      cases heq
      exact hcomma rfl
    · obtain ⟨xs, ts, rfl, hxs, hts⟩ := List.map_eq_append_iff.1 hts
      obtain ⟨⟨_, q⟩, ts, rfl, rfl, hts₁⟩ := List.map_eq_cons_iff.1 hts
      simp only [List.length_append, List.length_cons] at hn
      rw [List.append_assoc, List.cons_append]
      obtain ⟨x, r, hcons, hx⟩ := hfirst (r := ⟨.comma, q⟩ :: (ts ++ ⟨close, p⟩ :: rest)) hxs
      exact arguments_eq_ok.2 (.inr ⟨x, r, item.2, _, hcons, hx,
        hread xs _ hxs ⟨.comma, q, _, rfl, by simp [isEnd]⟩ n (by omega),
        .inl ⟨q, _, _, rfl, ih hitems hvs hts₁ (by omega), rfl⟩⟩)

theorem call {f : Expr} {args : List (List Token × Expr)} (hf : Read template .suffixed us f)
    (hargs : ∀ arg ∈ args, Derives template .ternary arg.1 arg.2 ∧ Read template .ternary arg.1 arg.2)
    (hlisted : Listed (args.map Prod.fst) vs) :
    Read template .suffixed (us ++ .leftParen :: (vs ++ [.rightParen])) (.call f (args.map Prod.snd)) := by
  intro ts rest hts k x hx n hn
  obtain ⟨fs, ts, rfl, hfs, hts₁⟩ := List.map_eq_append_iff.1 hts
  obtain ⟨⟨_, p⟩, ts, rfl, rfl, hts₂⟩ := List.map_eq_cons_iff.1 hts₁
  obtain ⟨as, ts, rfl, has, hts₃⟩ := List.map_eq_append_iff.1 hts₂
  obtain ⟨⟨_, q⟩, rfl, rfl⟩ := List.map_eq_singleton_iff.1 hts₃
  simp only [List.length_append, List.length_cons, List.length_nil] at hn
  simp only [List.append_assoc, List.cons_append, List.nil_append]
  refine hf fs _ hfs (k + 16 * vs.length + 19) x (fun m hm => ?_) n (by omega)
  obtain ⟨m, rfl⟩ : ∃ k, m = k + 1 := ⟨m - 1, by omega⟩
  exact suffixes_eq_ok.2 (.inr (.inl ⟨p, _, _, rest, rfl,
    arguments _ (.inl rfl) hargs hlisted has q rest (by omega), hx m (by omega)⟩))

theorem member {name : String} (h : Read template .suffixed us e) :
    Read template .suffixed (us ++ [.dot, .identifier name]) (.member e name) := by
  intro ts rest hts k x hx n hn
  obtain ⟨os, ts, rfl, hos, hts₁⟩ := List.map_eq_append_iff.1 hts
  obtain ⟨⟨_, p⟩, ts, rfl, rfl, hts₂⟩ := List.map_eq_cons_iff.1 hts₁
  obtain ⟨⟨_, q⟩, rfl, rfl⟩ := List.map_eq_singleton_iff.1 hts₂
  simp only [List.length_append, List.length_cons, List.length_nil] at hn
  rw [List.append_assoc]
  refine h os _ hos (k + 1) x (fun m hm => ?_) n (by omega)
  obtain ⟨m, rfl⟩ : ∃ k, m = k + 1 := ⟨m - 1, by omega⟩
  exact suffixes_eq_ok.2 (.inr (.inr (.inl ⟨p, q, name, rest, rfl, hx m (by omega)⟩)))

theorem index {i : Expr} (h : Read template .suffixed us e) (hi : Read template .ternary vs i) :
    Read template .suffixed (us ++ .leftBracket :: (vs ++ [.rightBracket])) (.index e i) := by
  intro ts rest hts k x hx n hn
  obtain ⟨os, ts, rfl, hos, hts₁⟩ := List.map_eq_append_iff.1 hts
  obtain ⟨⟨_, p⟩, ts, rfl, rfl, hts₂⟩ := List.map_eq_cons_iff.1 hts₁
  obtain ⟨is, ts, rfl, his, hts₃⟩ := List.map_eq_append_iff.1 hts₂
  obtain ⟨⟨_, q⟩, rfl, rfl⟩ := List.map_eq_singleton_iff.1 hts₃
  simp only [List.length_append, List.length_cons, List.length_nil] at hn
  simp only [List.append_assoc, List.cons_append, List.nil_append]
  refine h os _ hos (k + 16 * vs.length + 18) x (fun m hm => ?_) n (by omega)
  obtain ⟨m, rfl⟩ : ∃ k, m = k + 1 := ⟨m - 1, by omega⟩
  exact suffixes_eq_ok.2 (.inr (.inr (.inr ⟨p, _, i, q, rest, rfl,
    hi is _ his ⟨.rightBracket, q, rest, rfl, by simp [isEnd]⟩ m (by omega), hx m (by omega)⟩)))

theorem operandOnly (h : Read template .primary us e) : Read template .suffixed us e := by
  intro ts rest hts k x hx n hn
  exact ⟨e, rest, h ts rest hts n (by omega), hx n (by omega)⟩

theorem atom (ht : atom? t = some e) : Read template .primary [t] e := by
  intro ts rest hts n hn
  obtain ⟨⟨_, p⟩, rfl, rfl⟩ := List.map_eq_singleton_iff.1 hts
  rw [List.length_singleton] at hn
  obtain ⟨n, rfl⟩ : ∃ k, n = k + 1 := ⟨n - 1, by omega⟩
  exact primary_eq_ok.2 (.inl ⟨_, p, rfl, ht⟩)

theorem pieces {raw : String} {parts : List (Part Expr)} (h : template raw = .ok parts) :
    Read template .primary [.template raw] (.template parts) := by
  intro ts rest hts n hn
  obtain ⟨⟨_, p⟩, rfl, rfl⟩ := List.map_eq_singleton_iff.1 hts
  rw [List.length_singleton] at hn
  obtain ⟨n, rfl⟩ : ∃ k, n = k + 1 := ⟨n - 1, by omega⟩
  exact primary_eq_ok.2 (.inr (.inl ⟨raw, p, parts, rfl, h, rfl⟩))

theorem group (h : Read template .ternary us e) : Read template .primary (.leftParen :: (us ++ [.rightParen])) e := by
  intro ts rest hts n hn
  obtain ⟨⟨_, p⟩, ts, rfl, rfl, hts₁⟩ := List.map_eq_cons_iff.1 hts
  obtain ⟨is, ts, rfl, his, hts₂⟩ := List.map_eq_append_iff.1 hts₁
  obtain ⟨⟨_, q⟩, rfl, rfl⟩ := List.map_eq_singleton_iff.1 hts₂
  simp only [List.length_append, List.length_cons, List.length_nil] at hn
  simp only [List.append_assoc, List.cons_append, List.nil_append]
  obtain ⟨n, rfl⟩ : ∃ k, n = k + 1 := ⟨n - 1, by omega⟩
  exact primary_eq_ok.2 (.inr (.inr (.inl ⟨p, _, q, rfl,
    h is _ his ⟨.rightParen, q, rest, rfl, by simp [isEnd]⟩ n (by omega)⟩)))

theorem array {items : List (List Token × Expr)}
    (hitems : ∀ item ∈ items, Derives template .ternary item.1 item.2 ∧ Read template .ternary item.1 item.2)
    (hlisted : Listed (items.map Prod.fst) us) :
    Read template .primary (.leftBracket :: (us ++ [.rightBracket])) (.array (items.map Prod.snd)) := by
  intro ts rest hts n hn
  obtain ⟨⟨_, p⟩, ts, rfl, rfl, hts₁⟩ := List.map_eq_cons_iff.1 hts
  obtain ⟨is, ts, rfl, his, hts₂⟩ := List.map_eq_append_iff.1 hts₁
  obtain ⟨⟨_, q⟩, rfl, rfl⟩ := List.map_eq_singleton_iff.1 hts₂
  simp only [List.length_append, List.length_cons, List.length_nil] at hn
  simp only [List.append_assoc, List.cons_append, List.nil_append]
  obtain ⟨n, rfl⟩ : ∃ k, n = k + 1 := ⟨n - 1, by omega⟩
  exact primary_eq_ok.2 (.inr (.inr (.inr ⟨p, _, _, rfl,
    arguments _ (.inr rfl) hitems hlisted his q rest (by omega), rfl⟩)))

end Read

theorem Derives.read {s : Stratum} {us : List Token} (h : Derives template s us e) : Read template s us e := by
  induction h with
  | simple _ ih => exact ih.simple
  | choice i j k _ ha hb ihc iha ihb => exact ihc.choice i j k iha ha ihb hb
  | operand hlevel _ ih => exact ih.operand hlevel
  | join i hop _ hr ihl ihr => exact ihl.join i hop ihr hr
  | tight _ ih => exact ih.tight
  | await _ ih | negate _ ih | plus _ ih | not _ ih => exact ih.front rfl
  | bare h ih => exact ih.bare h
  | call _ hargs hlisted ihf ihargs => exact ihf.call (fun arg harg => ⟨hargs arg harg, ihargs arg harg⟩) hlisted
  | member _ ih => exact ih.member
  | index _ _ iho ihi => exact iho.index ihi
  | operandOnly _ ih => exact ih.operandOnly
  | number | string | true | false | null | this | identifier => exact .atom rfl
  | template h => exact .pieces h
  | group _ ih => exact ih.group
  | array hitems hlisted ihitems => exact .array (fun item hitem => ⟨hitems item hitem, ihitems item hitem⟩) hlisted

theorem Derives.expression {us : List Token} {rest : Tokens} (h : Derives template .ternary us e)
    (hts : ts.map (·.token) = us) (hended : Ended rest) : expression template (ts ++ rest) = .ok (e, rest) := by
  have hlength : us.length = ts.length := by rw [← hts, List.length_map]
  refine h.read ts rest hts hended _ ?_
  simp only [depthFor, List.length_append]
  obtain ⟨t, p, rest, rfl, _⟩ := hended
  rw [List.length_cons]
  omega

theorem Derives.only {us : List Token} {gap : Tokens} {i : Nat} (h : Derives template .ternary us e)
    (hts : ts.map (·.token) = us) (hgap : gap.map (·.token) = newlines i) (p : Position) (r : Tokens) :
    only template (ts ++ (gap ++ ⟨.eof, p⟩ :: r)) = .ok e := by
  rw [Parser.only, h.expression hts (ended_append hgap ⟨.eof, p, r, rfl, by simp [isEnd]⟩)]
  simp only [bind, Except.bind]
  rw [skipNewlines_append hgap fun q r heq => by cases heq]
  rfl

theorem only_eq_ok : only template ts = .ok e ↔ ∃ ts' p r, expression template ts = .ok (e, ts') ∧
    skipNewlines ts' = ⟨.eof, p⟩ :: r := by
  rw [Parser.only, bind_eq_ok]
  constructor
  · rintro ⟨⟨e', ts'⟩, he, h⟩
    simp only at h
    split at h
    · next p r heq =>
      cases h
      exact ⟨ts', p, r, he, heq⟩
    · exact absurd h (fault_ne_ok _ _ _)
  · rintro ⟨ts', p, r, he, heq⟩
    refine ⟨(e, ts'), he, ?_⟩
    simp only [heq]
    rfl

/-- The descent answers one way, so a phrase that it reads stands for one expression. -/
theorem Derives.unique {s : Stratum} {us : List Token} {e' : Expr} (h : Derives template s us e)
    (h' : Derives template s us e') : e = e' := by
  obtain ⟨ts, rfl⟩ : ∃ ts : Tokens, ts.map (·.token) = us :=
    ⟨us.map fun t => ⟨t, ⟨1, 1⟩⟩, by rw [List.map_map]; exact List.map_id' us⟩
  have heof : Ended [⟨.eof, ⟨1, 1⟩⟩] := ⟨.eof, _, [], rfl, by simp [isEnd]⟩
  have hstops {level : Nat} := heof.stops.mono (Nat.zero_le level)
  have hrest {e : Expr} {level : Nat} (n : Nat) (hn : 1 ≤ n) :
      binaryRest template n level e [⟨.eof, ⟨1, 1⟩⟩] = .ok (e, _) := binaryRest_stop hstops e hn
  have hsuffixes {e : Expr} (n : Nat) (hn : 1 ≤ n) : suffixes template n e [⟨.eof, ⟨1, 1⟩⟩] = .ok (e, _) :=
    suffixes_stop heof.stops e hn
  have hread := h.read ts [⟨.eof, ⟨1, 1⟩⟩] rfl
  have hread' := h'.read ts [⟨.eof, ⟨1, 1⟩⟩] rfl
  cases s with
  | ternary =>
    cases (hread heof _ (Nat.le_refl _)).symm.trans (hread' heof _ (Nat.le_refl _))
    rfl
  | binary level =>
    have hbound := Nat.le_add_right (1 + 16 * (ts.map (·.token)).length + 15) (2 * level)
    cases (hread hstops 1 _ hrest _ hbound).symm.trans (hread' hstops 1 _ hrest _ hbound)
    rfl
  | prefixed =>
    cases (hread hstops _ (Nat.le_refl _)).symm.trans (hread' hstops _ (Nat.le_refl _))
    rfl
  | suffixed =>
    obtain ⟨x, ts₁, hx, hs⟩ := hread 1 _ hsuffixes _ (Nat.le_refl _)
    obtain ⟨x', ts₂, hx', hs'⟩ := hread' 1 _ hsuffixes _ (Nat.le_refl _)
    cases hx.symm.trans hx'
    cases hs.symm.trans hs'
    rfl
  | primary =>
    cases (hread _ (Nat.le_refl _)).symm.trans (hread' _ (Nat.le_refl _))
    rfl

theorem append_eof {us vs ws : List Token} (h : vs ++ .eof :: ws = us ++ [.eof]) (hus : .eof ∉ us) :
    us = vs ∧ ws = [] := by
  rcases List.append_eq_append_iff.1 h with ⟨xs, rfl, hxs⟩ | ⟨xs, rfl, hxs⟩
  · cases xs with
    | nil => exact ⟨List.append_nil vs, (List.cons.inj hxs).2⟩
    | cons x xs => exact absurd (List.mem_append_right vs ((List.cons.inj hxs).1 ▸ List.mem_cons_self)) hus
  · cases xs with
    | nil => exact ⟨(List.append_nil us).symm, (List.cons.inj hxs).2.symm⟩
    | cons x xs => simp at hxs

/-- An expression is read exactly where the tokens in front of the end, but for line ends behind them, are a phrase of
it. No list of tokens is a phrase of two expressions. -/
theorem only_eq_ok_iff_derives (template : String → Except SheetError (List (Part Expr))) :
    (∀ (ts : Tokens) (us : List Token), ts.map (·.token) = us ++ [.eof] → .eof ∉ us → ∀ e,
      only template ts = .ok e ↔ ∃ vs i, us = vs ++ newlines i ∧ Derives template .ternary vs e) ∧
    ∀ (s : Stratum) (us : List Token) (e e' : Expr), Derives template s us e → Derives template s us e' → e = e' := by
  refine ⟨fun ts us hts heof e => ⟨fun h => ?_, ?_⟩, fun s us e e' h h' => h.unique h'⟩
  · obtain ⟨r, p, r', he, hr⟩ := only_eq_ok.1 h
    obtain ⟨vs, rfl, hvs⟩ := (sound template _).ternary he
    obtain ⟨gap, i, hgap, hi⟩ := skipNewlines_eq r
    rw [hgap, hr] at hts
    simp only [List.map_append, List.map_cons, hi, ← List.append_assoc] at hts
    obtain ⟨rfl, -⟩ := append_eof hts heof
    exact ⟨_, i, rfl, hvs⟩
  · rintro ⟨vs, i, rfl, h⟩
    obtain ⟨ts, ts', rfl, hphrase, hend⟩ := List.map_eq_append_iff.1 hts
    obtain ⟨⟨_, p⟩, rfl, rfl⟩ := List.map_eq_singleton_iff.1 hend
    obtain ⟨ts, gap, rfl, hvs, hgap⟩ := List.map_eq_append_iff.1 hphrase
    rw [List.append_assoc]
    exact h.only hvs hgap p []

/-- Differences are read from the left, with a line end behind the sign or the whole, and in no other way. -/
theorem only_difference : let place := fun (t : Token) => (⟨t, ⟨1, 1⟩⟩ : Token.Placed)
    let us := [Token.identifier "a", .minus, .newline, .identifier "b", .minus, .identifier "c"]
    only (fun _ => .ok []) ((us ++ [Token.newline, .eof]).map place) =
      .ok (.binary .subtract (.binary .subtract (.identifier "a") (.identifier "b")) (.identifier "c")) ∧
    ¬Derives (fun _ => .ok []) .ternary us
      (.binary .subtract (.identifier "a") (.binary .subtract (.identifier "b") (.identifier "c"))) := by
  intro place us
  have hname (name : String) : Derives (fun _ => .ok []) .prefixed [.identifier name] (.identifier name) :=
    .bare (.operandOnly (.identifier name))
  have hfactor (name : String) : Derives (fun _ => .ok []) (.binary 5) [.identifier name] (.identifier name) :=
    .operand (by decide) (.tight (hname name))
  have hsum : Derives (fun _ => .ok []) (.binary 4) us
      (.binary .subtract (.binary .subtract (.identifier "a") (.identifier "b")) (.identifier "c")) :=
    .join 0 .subtract (.join 1 .subtract (.operand (by decide) (hfactor "a")) (hfactor "b")) (hfactor "c")
  have hwhole : Derives (fun _ => .ok []) .ternary us
      (.binary .subtract (.binary .subtract (.identifier "a") (.identifier "b")) (.identifier "c")) :=
    .simple (.operand (by decide) (.operand (by decide) (.operand (by decide) (.operand (by decide) hsum))))
  obtain ⟨hread, hunique⟩ := only_eq_ok_iff_derives fun _ => .ok []
  refine ⟨(hread _ (us ++ [.newline]) ?_ (by simp [us]) _).2 ⟨us, 1, rfl, hwhole⟩, fun h => ?_⟩
  · rw [List.map_map]
    rfl
  · cases hunique _ _ _ _ hwhole h

end LiveSheet.Parser
