import LiveSheet.Proofs.Expr.Printing
import LiveSheet.Proofs.Expr.Script

/-! Operands in the place of operands. A script that is read is read as well when some of its operands, with signs in
front or without, give way to others: nothing around them is read otherwise. The tokens that the descent consumes are
followed in both scripts at once. -/

namespace LiveSheet.Parser

/-- Whether an operand may stand behind a token, which neither ends one nor waits for a name. -/
def opens : Token → Bool
  | .dot | .letWord | .rightParen | .rightBracket | .trueWord | .falseWord | .nullWord | .thisWord | .number _
  | .string _ | .template _ | .identifier _ => false
  | _ => true

/-- Whether a token may be the first of an operand with signs in front. -/
def starts : Token → Bool
  | .minus | .leftParen | .leftBracket | .trueWord | .falseWord | .nullWord | .thisWord | .number _ | .string _
  | .template _ | .identifier _ => true
  | _ => false

/-- Whether a token is a whole operand and has no other use. -/
def literal : Token → Bool
  | .trueWord | .falseWord | .nullWord | .number _ | .string _ => true
  | _ => false

/-- The tokens of an operand, maybe with signs in front, which stands for something however templates are split. -/
inductive Signed : List Token → Prop
  | bare {us : List Token} : (∀ template, ∃ e, Derives template .primary us e) → Signed us
  | negated {us : List Token} : Signed us → Signed (.minus :: us)

/-- The second list is the first with other operands in the place of some. They may stand at the start if that is
`opening`, but a literal of the first list may do so anywhere. -/
inductive Swaps : Bool → List Token → List Token → Prop
  | nil {opening : Bool} : Swaps opening [] []
  | token {opening : Bool} {us vs : List Token} (t : Token) : Swaps (opens t) us vs → Swaps opening (t :: us) (t :: vs)
  | operand {opening : Bool} {as bs us vs : List Token} : Signed as → Signed bs →
      opening = true ∨ (∃ t, as = [t] ∧ literal t = true) → Swaps false us vs → Swaps opening (as ++ us) (bs ++ vs)

variable {template : String → Except SheetError (List (Part Expr))} {n level : Nat} {t : Token} {us vs ws : List Token}
  {ts r : Tokens} {e : Expr} {opening : Bool}

theorem starts_of_primary (h : Derives template .primary us e) : ∃ t us', us = t :: us' ∧ starts t = true := by
  cases h <;> exact ⟨_, _, rfl, rfl⟩

theorem starts_of_signed (h : Signed us) : ∃ t us', us = t :: us' ∧ starts t = true := by
  cases h with
  | bare h =>
    obtain ⟨_, he⟩ := h fun _ => .ok []
    exact starts_of_primary he
  | negated => exact ⟨_, _, rfl, rfl⟩

theorem opens_of_atom (h : atom? t = some e) : opens t = false := by
  unfold atom? at h
  split at h <;> first | rfl | cases h

theorem signed_null : Signed [.nullWord] := .bare fun _ => ⟨_, .null⟩

theorem Signed.exists_signs (h : Signed us) (template : String → Except SheetError (List (Part Expr))) :
    ∃ signs us' e, us = List.replicate signs .minus ++ us' ∧ Derives template .primary us' e := by
  induction h with
  | @bare us h =>
    obtain ⟨e, he⟩ := h template
    exact ⟨0, us, e, rfl, he⟩
  | negated _ ih =>
    obtain ⟨signs, us, e, rfl, he⟩ := ih
    exact ⟨signs + 1, us, e, rfl, he⟩

theorem Swaps.eq_nil (h : Swaps opening [] vs) : vs = [] := by
  generalize hus : ([] : List Token) = us at h
  cases h with
  | nil => rfl
  | token => cases hus
  | operand has =>
    obtain ⟨_, _, rfl, _⟩ := starts_of_signed has
    cases hus

theorem Swaps.token_of (h : Swaps opening (t :: us) vs) (hstarts : (opening && starts t) = false)
    (ht : literal t = false) : ∃ vs', vs = t :: vs' ∧ Swaps (opens t) us vs' := by
  generalize hts : t :: us = ts at h
  cases h with
  | nil => cases hts
  | token t' h =>
    cases hts
    exact ⟨_, rfl, h⟩
  | operand has _ hopening _ =>
    obtain ⟨t', as, rfl, hstarts'⟩ := starts_of_signed has
    cases hts
    rcases hopening with rfl | heq
    · rw [hstarts'] at hstarts
      cases hstarts
    · obtain ⟨_, heq, hliteral⟩ := heq
      rw [← (List.cons.inj heq).1, ht] at hliteral
      cases hliteral

theorem Swaps.next {p : Position} (h : Swaps opening ((⟨t, p⟩ :: ts : Tokens).map (·.token)) vs)
    (hstarts : (opening && starts t) = false) (ht : literal t = false) :
    ∃ vs', vs = t :: vs' ∧ Swaps (opens t) (ts.map (·.token)) vs' :=
  h.token_of hstarts ht

theorem Swaps.skipNewlines (h : Swaps opening (ts.map (·.token)) vs) : ∃ i opening' vs', vs = newlines i ++ vs' ∧
    Swaps opening' ((skipNewlines ts).map (·.token)) vs' := by
  fun_induction Parser.skipNewlines ts generalizing opening vs with
  | case1 p ts ih =>
    obtain ⟨vs₁, rfl, hvs₁⟩ := h.next (Bool.and_false _) rfl
    obtain ⟨i, opening', vs₂, rfl, hvs₂⟩ := ih hvs₁
    exact ⟨i + 1, opening', vs₂, rfl, hvs₂⟩
  | case2 ts => exact ⟨0, opening, vs, rfl, h⟩

/-- Whether an operand may stand behind some tokens. -/
def opensBehind (opening : Bool) (us : List Token) : Bool := (us.getLast?.map opens).getD opening

theorem opensBehind_append (us vs : List Token) :
    opensBehind opening (us ++ vs) = opensBehind (opensBehind opening us) vs := by
  simp only [opensBehind, List.getLast?_append]
  cases vs.getLast? <;> rfl

theorem opensBehind_cons (t : Token) (us : List Token) : opensBehind opening (t :: us) = opensBehind (opens t) us := by
  have hsingle : opensBehind opening [t] = opens t := rfl
  rw [← hsingle, ← opensBehind_append, List.singleton_append]

theorem Swaps.behind (h : Swaps (opensBehind opening ws) us vs) : Swaps opening (ws ++ us) (ws ++ vs) := by
  induction ws generalizing opening with
  | nil => exact h
  | cons t ws ih =>
    rw [opensBehind_cons] at h
    exact .token t (ih h)

theorem Swaps.refl (opening : Bool) (us : List Token) : Swaps opening us us := by
  have h : Swaps opening (us ++ []) (us ++ []) := Swaps.behind .nil
  rwa [List.append_nil] at h

/-! ## What the descent reads -/

/-- The second list starts with a phrase, and goes on like the tokens that are left. -/
def Shadows (template : String → Except SheetError (List (Part Expr))) (s : Stratum) (vs : List Token) (r : Tokens) :
    Prop :=
  ∃ us ws e, vs = us ++ ws ∧ Derives template s us e ∧ Swaps false (r.map (·.token)) ws

/-- The second list starts with items up to a closing token, and goes on like the tokens that are left. -/
def ShadowsItems (template : String → Except SheetError (List (Part Expr))) (close : Token) (vs : List Token)
    (r : Tokens) : Prop :=
  ∃ us ws, ∃ items : List (List Token × Expr), vs = us ++ close :: ws ∧ Listed (items.map Prod.fst) us ∧
    (∀ item ∈ items, Derives template .ternary item.1 item.2) ∧ Swaps false (r.map (·.token)) ws

/-- What the functions of the descent read within a bound has a counterpart in the second list. The two that continue
an operand make a longer phrase of its counterpart. -/
structure Carries (template : String → Except SheetError (List (Part Expr))) (n : Nat) : Prop where
  ternary {opening : Bool} {ts r : Tokens} {vs : List Token} {e : Expr} : ternary template n ts = .ok (e, r) →
    Swaps opening (ts.map (·.token)) vs → Shadows template .ternary vs r
  binary {opening : Bool} {level : Nat} {ts r : Tokens} {vs : List Token} {e : Expr} : level ≤ 6 →
    binary template n level ts = .ok (e, r) → Swaps opening (ts.map (·.token)) vs →
    Shadows template (.binary level) vs r
  binaryRest {level : Nat} {us vs : List Token} {ts r : Tokens} {l l' e : Expr} :
    Derives template (.binary level) us l' →
    binaryRest template n level l ts = .ok (e, r) → Swaps false (ts.map (·.token)) vs →
    Shadows template (.binary level) (us ++ vs) r
  unary {opening : Bool} {ts r : Tokens} {vs : List Token} {e : Expr} : unary template n ts = .ok (e, r) →
    Swaps opening (ts.map (·.token)) vs → Shadows template .prefixed vs r
  suffixes {us vs : List Token} {ts r : Tokens} {l l' e : Expr} : Derives template .suffixed us l' →
    suffixes template n l ts = .ok (e, r) → Swaps false (ts.map (·.token)) vs → Shadows template .suffixed (us ++ vs) r
  arguments {opening : Bool} {close : Token} {unclosed : Token → SyntaxFault} {ts r : Tokens} {vs : List Token}
    {es : List Expr} : starts close = false → opens close = false →
    arguments template n close unclosed ts = .ok (es, r) →
    Swaps opening (ts.map (·.token)) vs → ShadowsItems template close vs r
  primary {opening : Bool} {ts r : Tokens} {vs : List Token} {e : Expr} : primary template n ts = .ok (e, r) →
    Swaps opening (ts.map (·.token)) vs →
    ∃ signs vs', vs = List.replicate signs .minus ++ vs' ∧ Shadows template .primary vs' r

section

variable (ih : Carries template n)
include ih

theorem ternary_carries (h : ternary template (n + 1) ts = .ok (e, r)) (hswaps : Swaps opening (ts.map (·.token)) vs) :
    Shadows template .ternary vs r := by
  obtain ⟨c, ts₁, hc, ⟨_, rfl, rfl⟩ | ⟨p, ts₂, a, ts₃, q, ts₄, b, rfl, ha, hcolon, hb, rfl⟩⟩ := ternary_eq_ok.1 h
  · obtain ⟨us, ws, e', rfl, hus, hws⟩ := ih.binary (Nat.zero_le 6) hc hswaps
    exact ⟨us, ws, e', rfl, .simple hus, hws⟩
  · obtain ⟨cs, ws, c', rfl, hcs, hws⟩ := ih.binary (Nat.zero_le 6) hc hswaps
    obtain ⟨ws₁, rfl, hws₁⟩ := hws.next rfl rfl
    obtain ⟨i, _, ws₂, rfl, hws₂⟩ := hws₁.skipNewlines
    obtain ⟨as, ws₃, a', rfl, has, hws₃⟩ := ih.ternary ha hws₂
    obtain ⟨j, _, ws₄, rfl, hws₄⟩ := hws₃.skipNewlines
    rw [hcolon] at hws₄
    obtain ⟨ws₅, rfl, hws₅⟩ := hws₄.next (Bool.and_false _) rfl
    obtain ⟨k, _, ws₆, rfl, hws₆⟩ := hws₅.skipNewlines
    obtain ⟨bs, ws₇, b', rfl, hbs, hws₇⟩ := ih.ternary hb hws₆
    exact ⟨_, ws₇, _, by simp, .choice i j k hcs has hbs, hws₇⟩

theorem binary_carries (hlevel : level ≤ 6) (h : binary template (n + 1) level ts = .ok (e, r))
    (hswaps : Swaps opening (ts.map (·.token)) vs) : Shadows template (.binary level) vs r := by
  by_cases hlt : level < levels
  · obtain ⟨l, ts₁, hl, hrest⟩ := (binary_eq_ok hlt).1 h
    obtain ⟨us, ws, l', rfl, hus, hws⟩ := ih.binary hlt hl hswaps
    exact ih.binaryRest (.operand hlt hus) hrest hws
  · obtain rfl : level = 6 := Nat.le_antisymm hlevel (Nat.not_lt.1 hlt)
    rw [binary_levels hlt] at h
    obtain ⟨us, ws, e', rfl, hus, hws⟩ := ih.unary h hswaps
    exact ⟨us, ws, e', rfl, .tight hus, hws⟩

theorem binaryRest_carries {l l' : Expr} (hl : Derives template (.binary level) us l')
    (h : binaryRest template (n + 1) level l ts = .ok (e, r)) (hswaps : Swaps false (ts.map (·.token)) vs) :
    Shadows template (.binary level) (us ++ vs) r := by
  rcases binaryRest_eq_ok.1 h with ⟨_, rfl, rfl⟩ | ⟨⟨t, p⟩, rest, op, x, ts₁, rfl, hop, hx, hrest⟩
  · exact ⟨us, vs, l', rfl, hl, hswaps⟩
  · have hjoins := joins_iff.2 hop
    obtain ⟨vs₁, rfl, hvs₁⟩ := hswaps.next rfl (by cases hjoins <;> rfl)
    obtain ⟨i, _, vs₂, rfl, hvs₂⟩ := hvs₁.skipNewlines
    obtain ⟨xs, vs₃, x', rfl, hxs, hvs₃⟩ := ih.binary hjoins.lt hx hvs₂
    have hlonger := ih.binaryRest (.join i hjoins hl hxs) hrest hvs₃
    simpa only [List.append_assoc, List.cons_append] using hlonger

theorem unary_carries (h : unary template (n + 1) ts = .ok (e, r)) (hswaps : Swaps opening (ts.map (·.token)) vs) :
    Shadows template .prefixed vs r := by
  rcases unary_eq_ok.1 h with ⟨t, p, rest, f, x, rfl, hf, hx, rfl⟩ | ⟨_, x, ts₁, hx, hs⟩
  · rw [List.map_cons] at hswaps
    generalize hts : t :: rest.map (·.token) = us at hswaps
    cases hswaps with
    | nil => cases hts
    | token t' hrest =>
      cases hts
      obtain ⟨us, ws, e', rfl, hus, hws⟩ := ih.unary hx hrest
      have hfront : ∃ e, Derives template .prefixed (t :: us) e := by
        unfold prefixed? at hf
        split at hf
        · exact ⟨_, .await hus⟩
        · exact ⟨_, .negate hus⟩
        · exact ⟨_, .plus hus⟩
        · exact ⟨_, .not hus⟩
        · cases hf
      obtain ⟨e, he⟩ := hfront
      exact ⟨t :: us, ws, e, rfl, he, hws⟩
    | @operand _ as bs us vs has hbs hopening hrest =>
      -- the sign belongs to an operand, of which the rest stands for the same counterpart
      cases has with
      | bare has =>
        obtain ⟨_, he⟩ := has template
        obtain ⟨t', us', rfl, _, hfront⟩ := he.begins
        rw [(List.cons.inj hts).1, hfront (.inr rfl)] at hf
        cases hf
      | negated has =>
        obtain ⟨rfl, hrest'⟩ := List.cons.inj hts
        have hswaps : Swaps true (rest.map (·.token)) (bs ++ vs) := hrest' ▸ .operand has hbs (.inl rfl) hrest
        exact ih.unary hx hswaps
  · obtain ⟨signs, vs, rfl, us, ws, x', rfl, hus, hws⟩ := ih.primary hx hswaps
    obtain ⟨us', ws', e', heq, hus', hws'⟩ := ih.suffixes (.operandOnly hus) hs hws
    have hsigned : ∃ e, Derives template .prefixed (List.replicate signs .minus ++ us') e := by
      clear hx hswaps
      induction signs with
      | zero => exact ⟨e', .bare hus'⟩
      | succ signs ih =>
        obtain ⟨e, he⟩ := ih
        exact ⟨_, .negate he⟩
    obtain ⟨e, he⟩ := hsigned
    exact ⟨_, ws', e, by rw [heq, List.append_assoc], he, hws'⟩

theorem suffixes_carries {l l' : Expr} (hl : Derives template .suffixed us l')
    (h : suffixes template (n + 1) l ts = .ok (e, r)) (hswaps : Swaps false (ts.map (·.token)) vs) :
    Shadows template .suffixed (us ++ vs) r := by
  rcases suffixes_eq_ok.1 h with ⟨_, rfl, rfl⟩ | ⟨p, rest, args, ts₁, rfl, hargs, hs⟩ | ⟨p, q, name, rest, rfl, hs⟩ |
    ⟨p, rest, i, q, ts₁, rfl, hi, hs⟩
  · exact ⟨us, vs, l', rfl, hl, hswaps⟩
  · obtain ⟨vs₁, rfl, hvs₁⟩ := hswaps.next rfl rfl
    obtain ⟨as, vs₂, items, rfl, hlisted, hitems, hvs₂⟩ := ih.arguments rfl rfl hargs hvs₁
    have hlonger := ih.suffixes (.call hl hitems hlisted) hs hvs₂
    simpa only [List.append_assoc, List.cons_append, List.nil_append] using hlonger
  · obtain ⟨vs₁, rfl, hvs₁⟩ := hswaps.next rfl rfl
    obtain ⟨vs₂, rfl, hvs₂⟩ := hvs₁.next rfl rfl
    have hmember : Derives template .suffixed (us ++ [.dot, .identifier name]) (.member l' name) := .member hl
    have hlonger := ih.suffixes hmember hs hvs₂
    simpa only [List.append_assoc, List.cons_append, List.nil_append] using hlonger
  · obtain ⟨vs₁, rfl, hvs₁⟩ := hswaps.next rfl rfl
    obtain ⟨is, vs₂, i', rfl, his, hvs₂⟩ := ih.ternary hi hvs₁
    obtain ⟨vs₃, rfl, hvs₃⟩ := hvs₂.next rfl rfl
    have hlonger := ih.suffixes (.index hl his) hs hvs₃
    simpa only [List.append_assoc, List.cons_append, List.nil_append] using hlonger

theorem arguments_carries {close : Token} {unclosed : Token → SyntaxFault} {es : List Expr}
    (hstarts : starts close = false) (hopens : opens close = false)
    (h : arguments template (n + 1) close unclosed ts = .ok (es, r)) (hswaps : Swaps opening (ts.map (·.token)) vs) :
    ShadowsItems template close vs r := by
  have hclose : ∀ {opening p r ws}, Swaps opening ((⟨close, p⟩ :: r : Tokens).map (·.token)) ws →
      ∃ ws', ws = close :: ws' ∧ Swaps false (r.map (·.token)) ws' := by
    intro opening p r ws hws
    have hliteral : literal close = false := by
      cases close <;> first | rfl | cases hstarts
    rw [← hopens]
    exact hws.next (by rw [hstarts, Bool.and_false]) hliteral
  rcases arguments_eq_ok.1 h with ⟨p, rfl, rfl⟩ | ⟨_, _, x, ts₁, _, _, hx, hrest⟩
  · obtain ⟨vs, rfl, hvs⟩ := hclose hswaps
    exact ⟨[], vs, [], rfl, .inl rfl, List.forall_mem_nil _, hvs⟩
  · obtain ⟨us, vs, x', rfl, hus, hvs⟩ := ih.ternary hx hswaps
    rcases hrest with ⟨p, ts₂, xs, rfl, hxs, rfl⟩ | ⟨_, p, rfl, rfl⟩
    · obtain ⟨vs₁, rfl, hvs₁⟩ := hvs.next rfl rfl
      obtain ⟨us', vs₂, items, rfl, hlisted, hitems, hvs₂⟩ := ih.arguments hstarts hopens hxs hvs₁
      exact ⟨us ++ .comma :: us', vs₂, (us, x') :: items, by simp, hlisted.cons us,
        List.forall_mem_cons.2 ⟨hus, hitems⟩, hvs₂⟩
    · obtain ⟨vs₁, rfl, hvs₁⟩ := hclose hvs
      exact ⟨us, vs₁, [(us, x')], rfl, .inl (by simp), List.forall_mem_singleton.2 hus, hvs₁⟩

theorem primary_carries (h : primary template (n + 1) ts = .ok (e, r)) (hswaps : Swaps opening (ts.map (·.token)) vs) :
    ∃ signs vs', vs = List.replicate signs .minus ++ vs' ∧ Shadows template .primary vs' r := by
  generalize hus : ts.map (·.token) = us at hswaps
  cases hswaps with
  | nil =>
    obtain ⟨us, hts, hphrase⟩ := (sound template _).primary h
    obtain ⟨_, _, heq, _⟩ := hphrase.begins
    rw [hts, List.map_append, heq] at hus
    cases hus
  | @token _ us vs t hrest =>
    obtain ⟨⟨_, p⟩, rest, rfl, ht, rfl⟩ := List.map_eq_cons_iff.1 hus
    obtain rfl : _ = t := ht
    refine ⟨0, _, rfl, ?_⟩
    rcases primary_eq_ok.1 h with ⟨t, q, heq, ht⟩ | ⟨raw, q, parts, heq, hparts, rfl⟩ | ⟨q, rest, q', heq, hinner⟩ |
      ⟨q, rest, items, heq, hitems, rfl⟩
    · cases heq
      rw [opens_of_atom ht] at hrest
      exact ⟨_, vs, e, rfl, derives_atom ht, hrest⟩
    · cases heq
      exact ⟨_, vs, _, rfl, .template hparts, hrest⟩
    · cases heq
      obtain ⟨us, ws, e', rfl, hus, hws⟩ := ih.ternary hinner hrest
      obtain ⟨ws₁, rfl, hws₁⟩ := hws.next rfl rfl
      exact ⟨_, ws₁, e', by simp, .group hus, hws₁⟩
    · cases heq
      obtain ⟨us, ws, items, rfl, hlisted, hitems, hws⟩ := ih.arguments rfl rfl hitems hrest
      exact ⟨_, ws, _, by simp, .array hitems hlisted, hws⟩
  | @operand _ as bs us vs has hbs _ hrest =>
    obtain ⟨ys, hys, hphrase⟩ := (sound template _).primary h
    obtain ⟨signs, bs, b, rfl, hoperand⟩ := hbs.exists_signs template
    refine ⟨signs, bs ++ vs, List.append_assoc .., bs, vs, b, rfl, hoperand, ?_⟩
    cases has with
    | bare has =>
      -- operands in front of the same tokens end at the same place
      obtain ⟨a, ha⟩ := has template
      obtain ⟨xs, rest, rfl, rfl, rfl⟩ := List.map_eq_append_iff.1 hus
      have hbound := Nat.le_add_right (16 * (xs.map (·.token)).length) (16 * (ys.map (·.token)).length)
      have hread := ha.read xs rest rfl _ hbound
      have hread' := hphrase.read ys r rfl _ (Nat.le_add_left _ (16 * (xs.map (·.token)).length))
      rw [← hys, hread] at hread'
      cases hread'
      exact hrest
    | negated =>
      obtain ⟨t, us', heq, _, hfront⟩ := hphrase.begins
      rw [hys, List.map_append, heq] at hus
      cases (List.cons.inj hus).1
      cases hfront (.inr rfl)

end

theorem carries (template : String → Except SheetError (List (Part Expr))) (n : Nat) : Carries template n := by
  induction n with
  | zero =>
    refine ⟨fun h => ?_, fun _ h => ?_, fun _ h => ?_, fun h => ?_, fun _ h => ?_, fun _ _ h => ?_, fun h => ?_⟩
    all_goals exact absurd h (fault_ne_ok _ _ _)
  | succ n ih =>
    exact ⟨ternary_carries ih, binary_carries ih, binaryRest_carries ih, unary_carries ih, suffixes_carries ih,
      arguments_carries ih, primary_carries ih⟩

/-! ## Scripts -/

theorem exists_phrase (h : Derives template .ternary us e) {rest : List Token}
    (hrest : ∃ t us', rest = t :: us' ∧ isEnd t) (hswaps : Swaps opening (us ++ rest) vs) :
    ∃ us' ws e', vs = us' ++ ws ∧ Derives template .ternary us' e' ∧ Swaps false rest ws := by
  have hplace : ∀ xs : List Token, (xs.map fun t => (⟨t, ⟨1, 1⟩⟩ : Token.Placed)).map (·.token) = xs := fun xs => by
    rw [List.map_map]
    exact List.map_id' xs
  obtain ⟨t, rest, rfl, ht⟩ := hrest
  have hread := h.expression (hplace us) ⟨t, ⟨1, 1⟩, rest.map fun t => ⟨t, ⟨1, 1⟩⟩, rfl, ht⟩
  rw [← hplace us, ← hplace (t :: rest), ← List.map_append] at hswaps
  obtain ⟨us', ws, e', heq, hus', hws⟩ := (carries template _).ternary hread hswaps
  rw [← List.map_cons (f := fun t => (⟨t, ⟨1, 1⟩⟩ : Token.Placed)), hplace] at hws
  exact ⟨us', ws, e', heq, hus', hws⟩

theorem exists_statement {s : Statement} (h : States template us s) {rest : List Token}
    (hrest : ∃ t us', rest = t :: us' ∧ isEnd t) (hswaps : Swaps opening (us ++ rest) vs) :
    ∃ us' ws s', vs = us' ++ ws ∧ States template us' s' ∧ Swaps false rest ws := by
  cases h with
  | expr h =>
    obtain ⟨us', ws, e', rfl, hus', hws⟩ := exists_phrase h hrest hswaps
    exact ⟨us', ws, _, rfl, .expr hus', hws⟩
  | bind name h =>
    obtain ⟨vs₁, rfl, hvs₁⟩ := hswaps.token_of (Bool.and_false _) rfl
    obtain ⟨vs₂, rfl, hvs₂⟩ := hvs₁.token_of rfl rfl
    obtain ⟨vs₃, rfl, hvs₃⟩ := hvs₂.token_of rfl rfl
    obtain ⟨us', ws, e', rfl, hus', hws⟩ := exists_phrase h hrest hvs₃
    exact ⟨_, ws, _, rfl, .bind name hus', hws⟩

theorem exists_script {ps : Program} (h : Scripted template us ps) (hswaps : Swaps opening (us ++ [.eof]) vs) :
    ∃ vs' ps', vs = vs' ++ [.eof] ∧ Scripted template vs' ps' := by
  have hend : ∀ {opening vs}, Swaps opening [.eof] vs → vs = [.eof] := by
    intro opening vs h
    obtain ⟨vs', rfl, hvs'⟩ := h.token_of (Bool.and_false _) rfl
    rw [hvs'.eq_nil]
  induction h generalizing opening vs with
  | nil => exact ⟨[], [], hend hswaps, .nil⟩
  | @separator t us ps ht _ ih =>
    have hstarts : starts t = false ∧ literal t = false := by rcases ht with rfl | rfl <;> exact ⟨rfl, rfl⟩
    obtain ⟨vs, rfl, hvs⟩ := hswaps.token_of (by rw [hstarts.1, Bool.and_false]) hstarts.2
    obtain ⟨vs', ps', rfl, hvs'⟩ := ih hvs
    exact ⟨t :: vs', ps', rfl, .separator ht hvs'⟩
  | @statement us rest s ps hs hnext _ ih =>
    have hrest : ∃ t us', rest ++ [.eof] = t :: us' ∧ isEnd t := by
      cases rest with
      | nil => exact ⟨.eof, [], rfl, by simp [isEnd]⟩
      | cons t rest => exact ⟨t, _, rfl, isEnd_of_endsStatement (hnext t rfl).endsStatement⟩
    rw [List.append_assoc] at hswaps
    obtain ⟨us', ws, s', rfl, hus', hws⟩ := exists_statement hs hrest hswaps
    obtain ⟨vs', ps', rfl, hvs'⟩ := ih hws
    refine ⟨us' ++ vs', s' :: ps', by simp, .statement hus' (fun t ht => ?_) hvs'⟩
    cases rest with
    | nil =>
      obtain rfl : vs' = [] := by simpa using hend hws
      cases ht
    | cons t' rest =>
      have ht' := hnext t' rfl
      have hliteral : literal t' = false := by rcases ht' with rfl | rfl <;> rfl
      obtain ⟨ws, heq, _⟩ := Swaps.token_of hws rfl hliteral
      cases vs' with
      | nil => cases ht
      | cons v vs' =>
        cases ht
        exact (List.cons.inj heq).1 ▸ ht'

end LiveSheet.Parser
