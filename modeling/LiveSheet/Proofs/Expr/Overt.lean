import LiveSheet.Proofs.Expr.Awaited

/-! Calls that show. The names of a call are found in the text before its parenthesis, and an
`await` right before them, so neither may hide in parentheses of its own. Tokens that are read as a
name or a path are just that, perhaps in parentheses, and tokens that are read as a call of one of
the names start with it or with a parenthesis. -/

namespace LiveSheet

def Expr.isNamedCall (names : List String) : Expr → Bool
  | .call callee _ => callee.isNamed names
  | _ => false

/-- An expression that needs no operator. -/
def Expr.isOperand : Expr → Bool
  | .unary .. | .binary .. | .ternary .. | .await _ => false
  | _ => true

/-- The first expression is the operand that the second adds calls, members and indices to. -/
inductive Expr.Beneath (x : Expr) : Expr → Prop where
  | refl : Beneath x x
  | call {c args} (h : Beneath x c) : Beneath x (.call c args)
  | member {c name} (h : Beneath x c) : Beneath x (.member c name)
  | index {c key} (h : Beneath x c) : Beneath x (.index c key)

theorem Expr.Beneath.trans {x y z : Expr} (h₁ : x.Beneath y) (h₂ : y.Beneath z) : x.Beneath z := by
  induction h₂ with
  | refl => exact h₁
  | call _ ih => exact ih.call
  | member _ ih => exact ih.member
  | index _ ih => exact ih.index

theorem Expr.beneath_identifier {x : Expr} {a : String} (h : x.Beneath (.identifier a)) : x = .identifier a := by
  cases h
  rfl

namespace Parser

variable (names : List String)

/-- The tokens behind an expression make a call of one of the names out of it. -/
def Leads (e : Expr) (ts : Tokens) : Prop :=
  (e.isNamed names = true ∧ ∃ p rest, ts = ⟨.leftParen, p⟩ :: rest) ∨
  ∃ a b p q t rest, e = .identifier a ∧ a ++ "." ++ b ∈ names ∧
    ts = ⟨.dot, p⟩ :: ⟨.identifier b, q⟩ :: ⟨.leftParen, t⟩ :: rest

/-- Tokens that are a name or a path, perhaps in parentheses, and the tokens after it. -/
inductive Bare : Expr → Tokens → Tokens → Prop where
  | name {a p r} : Bare (.identifier a) (⟨.identifier a, p⟩ :: r) r
  | member {a b ts p q r} (h : Bare (.identifier a) ts (⟨.dot, p⟩ :: ⟨.identifier b, q⟩ :: r)) :
    Bare (.member (.identifier a) b) ts r
  | group {e p q ts r} (h : Bare e ts (⟨.rightParen, q⟩ :: r)) : Bare e (⟨.leftParen, p⟩ :: ts) r

/-- No callee of a call hides in parentheses, and no call that is awaited. -/
structure Overt (ts : Tokens) : Prop where
  group : ∀ p rest e q r, ⟨.leftParen, p⟩ :: rest <:+ ts → Bare e rest (⟨.rightParen, q⟩ :: r) →
    ¬Leads names e r
  await : ∀ p q rest, ⟨.awaitWord, p⟩ :: ⟨.leftParen, q⟩ :: rest <:+ ts → ∀ template n e q r,
    ternary template n rest = .ok (e, ⟨.rightParen, q⟩ :: r) → e.isNamedCall names = false

variable {names} {template : String → Except SheetError (List (Part Expr))} {n : Nat}

theorem Overt.of_suffix {ts r : Tokens} (h : Overt names ts) (hr : r <:+ ts) : Overt names r where
  group p rest e q t hrest := h.group p rest e q t (hrest.trans hr)
  await p q rest hrest := h.await p q rest (hrest.trans hr)

theorem Bare.head {e : Expr} {ts r : Tokens} (h : Bare e ts r) :
    ∃ t p rest, ts = ⟨t, p⟩ :: rest ∧ (t = .leftParen ∨ ∃ a, t = .identifier a) := by
  induction h with
  | name => exact ⟨_, _, _, rfl, Or.inr ⟨_, rfl⟩⟩
  | member _ ih => exact ih
  | group _ _ => exact ⟨_, _, _, rfl, Or.inl rfl⟩

theorem binaryRest_shape {level : Nat} {l e : Expr} {ts r : Tokens}
    (h : binaryRest template n level l ts = .ok (e, r)) : (e = l ∧ r = ts) ∨ ∃ op a b, e = .binary op a b := by
  induction n generalizing l ts with
  | zero => exact absurd h (fault_ne_ok _ _ _)
  | succ n ih =>
    rcases binaryRest_eq_ok.1 h with ⟨_, rfl, rfl⟩ | ⟨_, _, op, x, _, _, _, _, hrest⟩
    · exact Or.inl ⟨rfl, rfl⟩
    · rcases ih hrest with ⟨rfl, _⟩ | hbinary
      · exact Or.inr ⟨op, l, x, rfl⟩
      · exact Or.inr hbinary

theorem unary_of_binary {level : Nat} {e : Expr} {ts r : Tokens} (he : e.isOperand = true)
    (h : binary template n level ts = .ok (e, r)) : ∃ m < n, unary template m ts = .ok (e, r) := by
  induction n generalizing level with
  | zero => exact absurd h (fault_ne_ok _ _ _)
  | succ n ih =>
    by_cases hlevel : level < levels
    · obtain ⟨l, ts₁, hl, hrest⟩ := (binary_eq_ok hlevel).1 h
      rcases binaryRest_shape hrest with ⟨rfl, rfl⟩ | ⟨_, _, _, rfl⟩
      · obtain ⟨m, hm, hunary⟩ := ih hl
        exact ⟨m, Nat.lt_succ_of_lt hm, hunary⟩
      · cases he
    · rw [binary_levels hlevel] at h
      exact ⟨n, Nat.lt_succ_self n, h⟩

theorem unary_of_ternary {e : Expr} {ts r : Tokens} (he : e.isOperand = true)
    (h : ternary template n ts = .ok (e, r)) : ∃ m < n, unary template m ts = .ok (e, r) := by
  cases n with
  | zero => exact absurd h (fault_ne_ok _ _ _)
  | succ n =>
    obtain ⟨c, ts₁, hc, ⟨_, rfl, rfl⟩ | ⟨_, _, _, _, _, _, _, _, _, _, _, rfl⟩⟩ := ternary_eq_ok.1 h
    · obtain ⟨m, hm, hunary⟩ := unary_of_binary he hc
      exact ⟨m, Nat.lt_succ_of_lt hm, hunary⟩
    · cases he

theorem primary_of_unary {e : Expr} {ts r : Tokens} (he : e.isOperand = true)
    (h : unary template n ts = .ok (e, r)) : ∃ m < n, ∃ x ts₁, primary template m ts = .ok (x, ts₁) ∧
      suffixes template m x ts₁ = .ok (e, r) := by
  cases n with
  | zero => exact absurd h (fault_ne_ok _ _ _)
  | succ n =>
    rcases unary_eq_ok.1 h with ⟨t, _, _, f, x, _, hf, _, rfl⟩ | ⟨_, x, ts₁, hx, hs⟩
    · unfold prefixed? at hf
      split at hf <;> cases hf <;> cases he
    · exact ⟨n, Nat.lt_succ_self n, x, ts₁, hx, hs⟩

theorem suffixes_beneath {x e : Expr} {ts r : Tokens} (h : suffixes template n x ts = .ok (e, r)) :
    x.Beneath e := by
  induction n generalizing x ts with
  | zero => exact absurd h (fault_ne_ok _ _ _)
  | succ n ih =>
    rcases suffixes_eq_ok.1 h with ⟨_, rfl, _⟩ | ⟨_, _, _, _, _, _, hs⟩ | ⟨_, _, _, _, _, hs⟩ | ⟨_, _, _, _, _, _, _, hs⟩
    · exact .refl
    · exact (Expr.Beneath.call .refl).trans (ih hs)
    · exact (Expr.Beneath.member .refl).trans (ih hs)
    · exact (Expr.Beneath.index .refl).trans (ih hs)

theorem suffixes_identifier {x : Expr} {a : String} {ts r : Tokens}
    (h : suffixes template n x ts = .ok (.identifier a, r)) : x = .identifier a ∧ r = ts := by
  cases n with
  | zero => exact absurd h (fault_ne_ok _ _ _)
  | succ n =>
    rcases suffixes_eq_ok.1 h with ⟨_, he, hr⟩ | ⟨_, _, _, _, _, _, hs⟩ | ⟨_, _, _, _, _, hs⟩ | ⟨_, _, _, _, _, _, _, hs⟩
    · exact ⟨he.symm, hr⟩
    all_goals cases Expr.beneath_identifier (suffixes_beneath hs)

theorem suffixes_path {x : Expr} {a b : String} {ts r : Tokens}
    (h : suffixes template n x ts = .ok (.member (.identifier a) b, r)) :
    (x = .member (.identifier a) b ∧ r = ts) ∨
      (x = .identifier a ∧ ∃ p q, ts = ⟨.dot, p⟩ :: ⟨.identifier b, q⟩ :: r) := by
  induction n generalizing x ts with
  | zero => exact absurd h (fault_ne_ok _ _ _)
  | succ n ih =>
    rcases suffixes_eq_ok.1 h with ⟨_, he, hr⟩ | ⟨_, _, _, _, _, _, hs⟩ | ⟨p, q, name, rest, rfl, hs⟩ | ⟨_, _, _, _, _, _, _, hs⟩
    · exact Or.inl ⟨he.symm, hr⟩
    · rcases ih hs with ⟨heq, _⟩ | ⟨heq, _⟩ <;> cases heq
    · rcases ih hs with ⟨heq, rfl⟩ | ⟨heq, _⟩
      · cases heq
        exact Or.inr ⟨rfl, p, q, rfl⟩
      · cases heq
    · rcases ih hs with ⟨heq, _⟩ | ⟨heq, _⟩ <;> cases heq

theorem suffixes_namedCall {x c : Expr} {args : List Expr} {ts r : Tokens} (hc : c.isNamed names = true)
    (h : suffixes template n x ts = .ok (.call c args, r)) : (x = .call c args ∧ r = ts) ∨
      Leads names x ts ∧ (x = c ∨ ∃ a, x = .identifier a) := by
  have hmember : ∀ {y : Expr}, y.Beneath c → y = c ∨ ∃ a, y = .identifier a := by
    intro y hy
    unfold Expr.isNamed Expr.calleePath? at hc
    split at hc
    · exact Or.inl (Expr.beneath_identifier hy)
    · cases hy with
      | refl => exact Or.inl rfl
      | member hy => exact Or.inr ⟨_, Expr.beneath_identifier hy⟩
    · cases hc
  induction n generalizing x ts with
  | zero => exact absurd h (fault_ne_ok _ _ _)
  | succ n ih =>
    rcases suffixes_eq_ok.1 h with ⟨_, he, hr⟩ | ⟨p, rest, args', ts₁, rfl, _, hs⟩ | ⟨p, q, name, rest, rfl, hs⟩ |
      ⟨_, _, _, _, _, _, _, hs⟩
    · exact Or.inl ⟨he.symm, hr⟩
    · rcases ih hs with ⟨heq, _⟩ | ⟨_, rfl | ⟨a, heq⟩⟩
      · cases heq
        exact Or.inr ⟨Or.inl ⟨hc, p, rest, rfl⟩, Or.inl rfl⟩
      · cases hc
      · cases heq
    · rcases ih hs with ⟨heq, _⟩ | ⟨hleads, rfl | ⟨a, heq⟩⟩
      · cases heq
      · rcases hmember (.member .refl) with heq | ⟨a, rfl⟩
        · have hsize := congrArg sizeOf heq
          simp only [Expr.member.sizeOf_spec] at hsize
          omega
        · rcases hleads with ⟨_, t, rest', rfl⟩ | ⟨_, _, _, _, _, _, heq, _⟩
          · exact Or.inr ⟨Or.inr ⟨a, name, p, q, t, rest', rfl, by
              simpa [Expr.isNamed, Expr.calleePath?] using hc, rfl⟩, Or.inr ⟨a, rfl⟩⟩
          · cases heq
      · cases heq
    · rcases ih hs with ⟨heq, _⟩ | ⟨_, rfl | ⟨a, heq⟩⟩
      · cases heq
      · cases hc
      · cases heq

theorem bare_of_ternary {e : Expr} {ts r : Tokens} (he : (∃ a, e = .identifier a) ∨ ∃ a b, e = .member (.identifier a) b)
    (h : ternary template n ts = .ok (e, r)) : Bare e ts r := by
  induction n using Nat.strongRecOn generalizing e ts r with
  | ind n ih =>
    have hoperand : e.isOperand = true := by
      rcases he with ⟨_, rfl⟩ | ⟨_, _, rfl⟩ <;> rfl
    obtain ⟨m, hm, hunary⟩ := unary_of_ternary hoperand h
    obtain ⟨k, hk, x, ts₁, hx, hs⟩ := primary_of_unary hoperand hunary
    have hprimary : ∀ x, ((∃ a, x = .identifier a) ∨ ∃ a b, x = .member (.identifier a) b) →
        primary template k ts = .ok (x, ts₁) → Bare x ts ts₁ := by
      intro x hname hx
      cases k with
      | zero => exact absurd hx (fault_ne_ok _ _ _)
      | succ k =>
        rcases primary_eq_ok.1 hx with ⟨t, p, rfl, ht⟩ | ⟨_, _, _, _, _, rfl⟩ | ⟨p, rest, q, rfl, hinner⟩ | ⟨_, _, _, _, _, rfl⟩
        · unfold atom? at ht
          split at ht <;> cases ht
          case h_7 => exact .name
          all_goals rcases hname with ⟨_, heq⟩ | ⟨_, _, heq⟩ <;> cases heq
        · rcases hname with ⟨_, heq⟩ | ⟨_, _, heq⟩ <;> cases heq
        · exact .group (ih k (by omega) hname hinner)
        · rcases hname with ⟨_, heq⟩ | ⟨_, _, heq⟩ <;> cases heq
    rcases he with ⟨a, rfl⟩ | ⟨a, b, rfl⟩
    · obtain ⟨rfl, rfl⟩ := suffixes_identifier hs
      exact hprimary _ (Or.inl ⟨a, rfl⟩) hx
    · rcases suffixes_path hs with ⟨rfl, rfl⟩ | ⟨rfl, p, q, rfl⟩
      · exact hprimary _ (Or.inr ⟨a, b, rfl⟩) hx
      · exact .member (hprimary _ (Or.inl ⟨a, rfl⟩) hx)

theorem path_of_leads {e : Expr} {ts : Tokens} (h : Leads names e ts) :
    (∃ a, e = .identifier a) ∨ ∃ a b, e = .member (.identifier a) b := by
  rcases h with ⟨hnamed, _⟩ | ⟨a, _, _, _, _, _, rfl, _⟩
  · unfold Expr.isNamed Expr.calleePath? at hnamed
    split at hnamed
    · exact Or.inl ⟨_, rfl⟩
    · exact Or.inr ⟨_, _, rfl⟩
    · cases hnamed
  · exact Or.inl ⟨a, rfl⟩

theorem Overt.not_leads {ts : Tokens} (h : Overt names ts) {p q : Position} {rest r : Tokens} {e : Expr}
    (hrest : ⟨.leftParen, p⟩ :: rest <:+ ts) (he : ternary template n rest = .ok (e, ⟨.rightParen, q⟩ :: r)) :
    ¬Leads names e r :=
  fun hleads => h.group p rest e q r hrest (bare_of_ternary (path_of_leads hleads) he) hleads

theorem Overt.not_isNamedCall {ts : Tokens} (h : Overt names ts) {p : Position} {rest r : Tokens} {e : Expr}
    (hrest : ⟨.awaitWord, p⟩ :: rest <:+ ts) (hcall : ¬StartsCall names rest)
    (he : unary template n rest = .ok (e, r)) : e.isNamedCall names = false := by
  refine Bool.eq_false_iff.2 fun hnamed => ?_
  unfold Expr.isNamedCall at hnamed
  split at hnamed
  · rename_i c args
    obtain ⟨m, _, x, ts₁, hx, hs⟩ := primary_of_unary rfl he
    cases m with
    | zero => exact absurd hx (fault_ne_ok _ _ _)
    | succ m =>
      rcases suffixes_namedCall hnamed hs with ⟨rfl, rfl⟩ | ⟨hleads, _⟩
      · rcases primary_eq_ok.1 hx with ⟨t, q, _, ht⟩ | ⟨_, _, _, _, _, heq⟩ | ⟨q, rest', q', rfl, hinner⟩ | ⟨_, _, _, _, _, heq⟩
        · unfold atom? at ht
          split at ht <;> cases ht
        · cases heq
        · have := h.await p q rest' hrest template m _ q' _ hinner
          simp [Expr.isNamedCall, hnamed] at this
        · cases heq
      · rcases primary_eq_ok.1 hx with ⟨t, q, rfl, ht⟩ | ⟨_, _, _, _, _, rfl⟩ | ⟨q, rest', q', rfl, hinner⟩ | ⟨_, _, _, _, _, rfl⟩
        · rcases path_of_leads hleads with ⟨a, rfl⟩ | ⟨_, _, rfl⟩
          · obtain rfl : t = .identifier a := by
              unfold atom? at ht
              split at ht <;> cases ht
              rfl
            rcases hleads with ⟨hname, q', rest', rfl⟩ | ⟨_, b, q', q₂, q₃, rest', heq, hname, rfl⟩
            · exact hcall ⟨_, q', rest', .name (by simpa [Expr.isNamed, Expr.calleePath?] using hname)⟩
            · cases heq
              exact hcall ⟨_, q₃, rest', .path hname⟩
          · unfold atom? at ht
            split at ht <;> cases ht
        · rcases path_of_leads hleads with ⟨_, heq⟩ | ⟨_, _, heq⟩ <;> cases heq
        · exact h.not_leads ((List.suffix_cons _ _).trans hrest) hinner hleads
        · rcases path_of_leads hleads with ⟨_, heq⟩ | ⟨_, _, heq⟩ <;> cases heq
  · cases hnamed

end Parser

end LiveSheet
