import LiveSheet.Proofs.Expr.Simulation

/-! Reading calls and whole texts. A call that is put behind `await` in parentheses is read as the
awaited call, and what stood behind the call continues it. With this the readers follow each other
on all tokens, and so do the expressions and programs they make. -/

namespace LiveSheet.Parser

variable {names : List String} {code : String → String → Prop}
  {template template' : String → Except SheetError (List (Part Expr))} {n : Nat}

theorem unary_of_callee {c e : Expr} {p : Position} {ts us r : Tokens}
    (hc : Callee names c ts (⟨.leftParen, p⟩ :: us)) (h : unary template n ts = .ok (e, r)) :
    ∃ k < n, ∃ args ts₁, arguments template k .rightParen .unclosedArguments us = .ok (args, ts₁) ∧
      suffixes template k (.call c args) ts₁ = .ok (e, r) := by
  have hparen : ∀ {k c}, suffixes template k c (⟨.leftParen, p⟩ :: us) = .ok (e, r) → ∃ j < k, ∃ args ts₁,
      arguments template j .rightParen .unclosedArguments us = .ok (args, ts₁) ∧
        suffixes template j (.call c args) ts₁ = .ok (e, r) := by
    intro k c h
    cases k with
    | zero => exact absurd h (fault_ne_ok _ _ _)
    | succ k =>
      rcases suffixes_eq_ok.1 h with ⟨hnone, _⟩ | ⟨_, _, args, ts₁, heq, hargs, hs⟩ | ⟨_, _, _, _, heq, _⟩ |
        ⟨_, _, _, _, _, heq, _⟩
      · exact absurd (Or.inl rfl) (hnone _ _ _ rfl)
      · cases heq
        exact ⟨k, Nat.lt_succ_self k, args, ts₁, hargs, hs⟩
      · cases heq
      · cases heq
  cases n with
  | zero => exact absurd h (fault_ne_ok _ _ _)
  | succ n =>
    rcases unary_eq_ok.1 h with ⟨t, q, rest, f, x, rfl, hf, _⟩ | ⟨_, x, ts₁, hx, hs⟩
    · cases hc <;> cases hf
    · cases n with
      | zero => exact absurd hx (fault_ne_ok _ _ _)
      | succ n =>
        cases hc with
        | name _ =>
          rw [primary] at hx
          cases hx
          obtain ⟨k, hk, hcall⟩ := hparen hs
          exact ⟨k, by omega, hcall⟩
        | path _ =>
          rw [primary] at hx
          cases hx
          rcases suffixes_eq_ok.1 hs with ⟨hnone, _⟩ | ⟨_, _, _, _, heq, _⟩ | ⟨_, _, _, _, heq, hs⟩ |
            ⟨_, _, _, _, _, heq, _⟩
          · exact absurd (Or.inr (Or.inl rfl)) (hnone _ _ _ rfl)
          · cases heq
          · cases heq
            obtain ⟨k, hk, hcall⟩ := hparen hs
            exact ⟨k, by omega, hcall⟩
          · cases heq

theorem unary_callee {c e : Expr} {args : List Expr} {p : Position} {us vs vs₁ r : Tokens} {depth : Nat}
    (hc : Callee names c us (⟨.leftParen, p⟩ :: vs))
    (hargs : ∀ m, depth ≤ m → arguments template m .rightParen .unclosedArguments vs = .ok (args, vs₁))
    (hs : ∀ m, depth ≤ m → suffixes template m (.call c args) vs₁ = .ok (e, r)) {m : Nat}
    (hm : depth + 4 ≤ m) : unary template m us = .ok (e, r) := by
  have hparen : ∀ k, depth + 1 ≤ k → suffixes template k c (⟨.leftParen, p⟩ :: vs) = .ok (e, r) := by
    intro k hk
    obtain ⟨k, rfl⟩ : ∃ j, k = j + 1 := ⟨k - 1, by omega⟩
    exact suffixes_eq_ok.2 (Or.inr (Or.inl ⟨p, vs, args, vs₁, rfl, hargs k (by omega), hs k (by omega)⟩))
  obtain ⟨m, rfl⟩ : ∃ k, m = k + 2 := ⟨m - 2, by omega⟩
  cases hc with
  | name _ =>
    refine unary_eq_ok.2 (Or.inr ⟨?_, _, _, by rw [primary], hparen _ (by omega)⟩)
    rintro t q rest heq
    cases heq
    rfl
  | @path a b q q' q'' _ _ =>
    refine unary_eq_ok.2 (Or.inr ⟨?_, _, _, by rw [primary], ?_⟩)
    · rintro t q rest heq
      cases heq
      rfl
    · exact suffixes_eq_ok.2 (Or.inr (Or.inr (Or.inl ⟨q', q'', b, _, rfl, hparen m (by omega)⟩)))

theorem ternary_of_unary {e : Expr} {q : Position} {us vs : Tokens} {depth : Nat}
    (h : ∀ m, depth ≤ m → unary template m us = .ok (e, ⟨.rightParen, q⟩ :: vs)) {m : Nat}
    (hm : depth + 8 ≤ m) : ternary template m us = .ok (e, ⟨.rightParen, q⟩ :: vs) := by
  have hstop : ∀ level k, binaryRest template (k + 1) level e (⟨.rightParen, q⟩ :: vs) =
      .ok (e, ⟨.rightParen, q⟩ :: vs) := by
    intro level k
    refine binaryRest_eq_ok.2 (Or.inl ⟨?_, rfl, rfl⟩)
    rintro t rest heq
    cases heq
    unfold operator?
    split <;> first | rfl | contradiction
  have hbinary : ∀ rise, rise ≤ levels → ∀ k, depth + rise + 1 ≤ k →
      binary template k (levels - rise) us = .ok (e, ⟨.rightParen, q⟩ :: vs) := by
    intro rise
    induction rise with
    | zero =>
      intro _ k hk
      obtain ⟨k, rfl⟩ : ∃ j, k = j + 1 := ⟨k - 1, by omega⟩
      rw [binary_levels (by omega)]
      exact h k (by omega)
    | succ rise ih =>
      intro hrise k hk
      obtain ⟨k, rfl⟩ : ∃ j, k = j + 2 := ⟨k - 2, by omega⟩
      have hlevel : levels - (rise + 1) + 1 = levels - rise := by omega
      refine (binary_eq_ok (by omega)).2 ⟨e, _, ?_, hstop _ k⟩
      rw [hlevel]
      exact ih (by omega) (k + 1) (by omega)
  obtain ⟨m, rfl⟩ : ∃ k, m = k + 1 := ⟨m - 1, by omega⟩
  refine ternary_eq_ok.2 ⟨e, _, hbinary levels (Nat.le_refl _) m ?_, Or.inl ⟨by simp, rfl, rfl⟩⟩
  have hlevels : levels = 6 := rfl
  omega

theorem awaitCalls_awaited {e : Expr} (h : e.isNamedCall names = false) :
    e.awaitCalls names true = e.awaitCalls names false := by
  cases e with
  | call callee args =>
    have hnamed : callee.isNamed names = false := h
    simp only [Expr.awaitCalls, hnamed, Bool.and_false]
  | _ => simp only [Expr.awaitCalls]

theorem Callee.isNamed {c : Expr} {ts rest : Tokens} (h : Callee names c ts rest) : c.isNamed names = true := by
  cases h with
  | name h => simpa [Expr.isNamed, Expr.calleePath?] using h
  | path h => simpa [Expr.isNamed, Expr.calleePath?] using h

theorem Callee.awaitCalls_eq {c : Expr} {ts rest : Tokens} (h : Callee names c ts rest) (awaited : Bool) :
    c.awaitCalls names awaited = c := by
  cases h with
  | name _ => simp only [Expr.awaitCalls]
  | path _ => simp only [Expr.awaitCalls]

theorem Callee.suffix {c : Expr} {ts rest : Tokens} (h : Callee names c ts rest) : rest <:+ ts := by
  cases h with
  | name _ => exact List.suffix_cons _ _
  | path _ => exact (List.suffix_cons _ _).trans ((List.suffix_cons _ _).trans (List.suffix_cons _ _))

theorem Callee.length_lt {c : Expr} {ts rest : Tokens} (h : Callee names c ts rest) :
    rest.length < ts.length := by
  cases h with
  | name _ => simp
  | path _ => simp only [List.length_cons]; omega

variable (ih : ∀ k ≤ n, Simulates names code template template' k)
include ih

theorem call_follows {s : List Frame} {c e : Expr} {p p' q q' : Position} {us us' ts ts' r : Tokens}
    (hc : Callee names c us (⟨.leftParen, p⟩ :: ts)) (hc' : Callee names c us' (⟨.leftParen, p'⟩ :: ts'))
    (hts : Awaits names code (.wrapped :: s) ts ts') (hovert : Overt names us) (hr : ¬StartsCall names r)
    (h : unary template (n + 1) us = .ok (e, r)) :
    Follows names code 14 s us (⟨.leftParen, q⟩ :: ⟨.awaitWord, q'⟩ :: us') e r fun m =>
      unary template' m (⟨.leftParen, q⟩ :: ⟨.awaitWord, q'⟩ :: us') := by
  obtain ⟨k, hk, args, ts₁, hargs, hs⟩ := unary_of_callee hc h
  have ih := ih k (by omega)
  have hsuffix : ts <:+ us := (List.suffix_cons _ _).trans hc.suffix
  obtain ⟨⟨t, hclose⟩, vs, t₁, t₂, hvs, hlength, hread⟩ :=
    ih.arguments _ _ _ _ _ _ _ (Or.inl rfl) hts (hovert.of_suffix hsuffix) hargs
  obtain ⟨t₃, vs₁, rfl, hvs₁⟩ := hvs.of_closeWrapped
  have hclose := (List.suffix_cons _ _).trans (hclose.trans hsuffix)
  obtain ⟨hsuffix', vs', hvs', hlength', hread'⟩ := ih.suffixes _ _ _ (.call c args) _ _ hvs₁
    (hovert.of_suffix hclose) (by simp [Leads, Expr.isNamed, Expr.calleePath?]) hr hs
  have hcallee := hc'.length_lt
  simp only [List.length_cons] at hcallee hlength hread
  refine ⟨hsuffix'.trans hclose, vs', hvs', by simp only [List.length_cons]; omega, fun m hm => ?_⟩
  simp only [List.length_cons] at hm
  obtain ⟨m, rfl⟩ : ∃ k, m = k + 2 := ⟨m - 2, by omega⟩
  have hstop : ∀ x m, 1 ≤ m → suffixes template' m x (⟨.rightParen, t₃⟩ :: vs₁) = .ok (x, ⟨.rightParen, t₃⟩ :: vs₁) := by
    intro x m hm
    obtain ⟨m, rfl⟩ : ∃ k, m = k + 1 := ⟨m - 1, by omega⟩
    refine suffixes_eq_ok.2 (Or.inl ⟨?_, rfl, rfl⟩)
    rintro t p rest heq
    cases heq
    simp [isSuffix]
  have hcall := fun m => unary_callee (m := m) hc' (fun m hm => hread m hm) fun m hm => hstop _ m (by omega)
  have hunary : ∀ k, 16 * (ts'.length - (vs₁.length + 1)) + 5 ≤ k → unary template' k (⟨.awaitWord, q'⟩ :: us') =
      .ok (.await (.call c (Expr.awaitAll names args)), ⟨.rightParen, t₃⟩ :: vs₁) := by
    intro k hk
    obtain ⟨k, rfl⟩ : ∃ j, k = j + 1 := ⟨k - 1, by omega⟩
    exact unary_eq_ok.2 (Or.inl ⟨.awaitWord, q', us', .await, _, rfl, rfl, hcall k (by omega), rfl⟩)
  have hinner := fun m (hm : _ ≤ m) => ternary_of_unary (m := m) hunary hm
  refine unary_eq_ok.2 (Or.inr ⟨?_, _, vs₁, primary_eq_ok.2 (Or.inr (Or.inr (Or.inl
    ⟨q, _, t₃, rfl, hinner m (by omega)⟩))), ?_⟩)
  · rintro t p rest heq
    cases heq
    rfl
  · have hread' := hread' (m + 1) (by omega)
    simp only [Expr.awaitCalls, hc.isNamed, hc.awaitCalls_eq, Bool.not_false, Bool.and_self, if_true] at hread'
    exact hread'

theorem awaitedCall_follows {s : List Frame} {c e : Expr} {p p' q' : Position} {us us' ts ts' r : Tokens}
    (hc : Callee names c us (⟨.leftParen, p⟩ :: ts)) (hc' : Callee names c us' (⟨.leftParen, p'⟩ :: ts'))
    (hts : Awaits names code (.awaited :: s) ts ts') (hovert : Overt names us) (hr : ¬StartsCall names r)
    (h : unary template n us = .ok (e, r)) :
    r <:+ us ∧ ∃ vs, Awaits names code s r vs ∧ vs.length < us'.length ∧
      ∀ m, 16 * (us'.length + 1 - vs.length) ≤ m + 14 →
        unary template' m (⟨.awaitWord, q'⟩ :: us') = .ok ((Expr.await e).awaitCalls names false, vs) := by
  obtain ⟨k, hk, args, ts₁, hargs, hs⟩ := unary_of_callee hc h
  have ih := ih k (by omega)
  have hsuffix : ts <:+ us := (List.suffix_cons _ _).trans hc.suffix
  obtain ⟨⟨t, hclose⟩, vs, t₁, t₂, hvs, hlength, hread⟩ :=
    ih.arguments _ _ _ _ _ _ _ (Or.inl rfl) hts (hovert.of_suffix hsuffix) hargs
  obtain ⟨hnone, hvs₁⟩ := hvs.of_closeAwaited
  have hclose := (List.suffix_cons _ _).trans (hclose.trans hsuffix)
  have hend : e = .call c args ∧ r = ts₁ := by
    cases k with
    | zero => exact absurd hs (fault_ne_ok _ _ _)
    | succ k =>
      rcases suffixes_eq_ok.1 hs with ⟨_, he, hr⟩ | ⟨p, rest, _, _, rfl, _⟩ | ⟨p, _, _, _, rfl, _⟩ |
        ⟨p, rest, _, _, _, rfl, _⟩
      · exact ⟨he, hr⟩
      · exact absurd (Or.inl rfl) (hnone _ _ _ rfl)
      · exact absurd (Or.inr (Or.inl rfl)) (hnone _ _ _ rfl)
      · exact absurd (Or.inr (Or.inr rfl)) (hnone _ _ _ rfl)
  obtain ⟨rfl, rfl⟩ := hend
  have hcallee := hc'.length_lt
  simp only [List.length_cons] at hcallee
  refine ⟨hclose, vs, hvs₁, by omega, fun m hm => ?_⟩
  have hnone' : ∀ t q rest, vs = ⟨t, q⟩ :: rest → ¬isSuffix t := by
    rintro t q rest rfl
    rcases hvs₁.head hr with ⟨q', rest', rfl⟩ | ⟨_, _, _, _, rfl, _⟩
    · exact hnone _ _ _ rfl
    · simp [isSuffix]
  obtain ⟨m, rfl⟩ : ∃ k, m = k + 1 := ⟨m - 1, by omega⟩
  have hstop : ∀ x m, 1 ≤ m → suffixes template' m x vs = .ok (x, vs) := by
    intro x m hm
    obtain ⟨m, rfl⟩ : ∃ k, m = k + 1 := ⟨m - 1, by omega⟩
    exact suffixes_eq_ok.2 (Or.inl ⟨hnone', rfl, rfl⟩)
  refine unary_eq_ok.2 (Or.inl ⟨.awaitWord, q', us', .await, _, rfl, rfl, unary_callee hc'
    (fun m hm => hread m hm) (fun m hm => hstop _ m (by omega)) (by omega), ?_⟩)
  simp only [Expr.awaitCalls, hc.isNamed, hc.awaitCalls_eq, Bool.not_true, Bool.false_and]
  rfl

theorem prefixed_follows {s : List Frame} {t : Token} {p : Position} {f : Expr → Expr} {x : Expr}
    {ts us r : Tokens} (hf : prefixed? t = some f) (hts : Awaits names code s (⟨t, p⟩ :: ts) us)
    (hovert : Overt names (⟨t, p⟩ :: ts)) (hr : ¬StartsCall names r) (h : unary template n ts = .ok (x, r)) :
    Follows names code 14 s (⟨t, p⟩ :: ts) us (f x) r fun m => unary template' m us := by
  have hrest := hovert.of_suffix (List.suffix_cons _ _)
  by_cases hawait : t = .awaitWord
  · subst hawait
    cases hf
    cases hts with
    | token hother _ => cases hother
    | @await _ _ p' _ us₁ hcall hus₁ =>
      obtain ⟨hsuffix, vs, hvs, hlength, hread⟩ := (ih n (Nat.le_refl n)).unary _ _ _ _ _ hus₁ hrest hr h
      refine ⟨hsuffix.trans (List.suffix_cons _ _), vs, hvs, by simp only [List.length_cons]; omega, fun m hm => ?_⟩
      simp only [List.length_cons] at hm
      obtain ⟨m, rfl⟩ : ∃ k, m = k + 1 := ⟨m - 1, by omega⟩
      refine unary_eq_ok.2 (Or.inl ⟨_, p', us₁, _, _, rfl, rfl, hread m (by omega), ?_⟩)
      have hnamed := hovert.not_isNamedCall List.suffix_rfl hcall h
      simp only [Expr.awaitCalls, awaitCalls_awaited hnamed]
    | awaitedCall hc hc' hts =>
      obtain ⟨hsuffix, vs, hvs, hlength, hread⟩ := awaitedCall_follows ih hc hc' hts hrest hr h
      refine ⟨hsuffix.trans (List.suffix_cons _ _), vs, hvs, by simp only [List.length_cons]; omega, fun m hm => ?_⟩
      simp only [List.length_cons] at hm
      exact hread m hm
    | call hc _ _ => cases hc
  · have hother : isOther t = true := by
      unfold prefixed? at hf
      split at hf <;> first | rfl | exact absurd rfl hawait | cases hf
    obtain ⟨p', us₁, rfl, hus₁⟩ := hts.of_other hother
    obtain ⟨hsuffix, vs, hvs, hlength, hread⟩ := (ih n (Nat.le_refl n)).unary _ _ _ _ _ hus₁ hrest hr h
    refine ⟨hsuffix.trans (List.suffix_cons _ _), vs, hvs, by simp only [List.length_cons]; omega, fun m hm => ?_⟩
    simp only [List.length_cons] at hm
    obtain ⟨m, rfl⟩ : ∃ k, m = k + 1 := ⟨m - 1, by omega⟩
    refine unary_eq_ok.2 (Or.inl ⟨t, p', us₁, f, _, rfl, hf, hread m (by omega), ?_⟩)
    unfold prefixed? at hf
    split at hf <;> cases hf
    · exact absurd rfl hawait
    all_goals simp only [Expr.awaitCalls]

theorem unary_follows {s : List Frame} {ts us : Tokens} {e : Expr} {r : Tokens}
    (hts : Awaits names code s ts us) (hovert : Overt names ts) (hr : ¬StartsCall names r)
    (h : unary template (n + 1) ts = .ok (e, r)) :
    Follows names code 14 s ts us e r fun m => unary template' m us := by
  rcases unary_eq_ok.1 h with ⟨t, p, rest, f, x, rfl, hf, hx, rfl⟩ | ⟨hnone, x, ts₁, hx, hs⟩
  · exact prefixed_follows ih hf hts hovert hr hx
  · by_cases hcall : StartsCall names ts
    · obtain ⟨c, p, rest, hc⟩ := hcall
      cases hts with
      | call hc' hc'' hts => exact call_follows ih hc' hc'' hts hovert hr h
      | name hcall _ => exact absurd ⟨c, p, rest, hc⟩ hcall
      | await _ _ => cases hc
      | awaitedCall _ _ _ => cases hc
      | token hother _ => cases hc <;> cases hother
      | _ => cases hc
    · have ih := ih n (Nat.le_refl n)
      obtain ⟨hleads, hsuffix, vs, hvs, hlength, hread⟩ := ih.primary _ _ _ _ _ hts hovert hcall hx
      obtain ⟨hsuffix', vs', hvs', hlength', hread'⟩ := ih.suffixes _ _ _ _ _ _ hvs
        (hovert.of_suffix hsuffix) hleads hr hs
      refine ⟨hsuffix'.trans hsuffix, vs', hvs', by omega, fun m hm => ?_⟩
      obtain ⟨m, rfl⟩ : ∃ k, m = k + 1 := ⟨m - 1, by omega⟩
      refine unary_eq_ok.2 (Or.inr ⟨?_, _, vs, hread m (by omega), hread' m (by omega)⟩)
      rintro t p rest rfl
      rcases hts.head hcall with ⟨q, rest', rfl⟩ | ⟨_, _, _, _, rfl, _⟩
      · exact hnone _ _ _ rfl
      · rfl

omit ih in
theorem simulates (hcode : ∀ raw raw' parts, code raw raw' → template raw = .ok parts →
    template' raw' = .ok (Expr.awaitParts names parts)) (n : Nat) : Simulates names code template template' n := by
  induction n using Nat.strongRecOn with
  | ind n ih =>
    cases n with
    | zero => exact simulates_zero
    | succ n =>
      have ih : ∀ k ≤ n, Simulates names code template template' k := fun k hk => ih k (by omega)
      constructor
      · intro s ts us e r hts hovert hr h
        exact ternary_follows ih hts hovert hr h
      · intro s ts us e r level hlevel hts hovert hr h
        exact binary_follows ih hlevel hts hovert hr h
      · intro s ts us l e r level hlevel hts hovert hr h
        exact binaryRest_continues ih hlevel hts hovert hr h
      · intro s ts us e r hts hovert hr h
        exact unary_follows ih hts hovert hr h
      · intro s ts us x e r hts hovert hleads hr h
        exact suffixes_continues ih hts hovert hleads hr h
      · intro s ts us close unclosed es r hclose hts hovert h
        exact arguments_closes ih hclose hts hovert h
      · intro s ts us e r hts hovert hcall h
        exact primary_follows ih hcode hts hovert hcall h

variable (hcode : ∀ raw raw' parts, code raw raw' → template raw = .ok parts →
  template' raw' = .ok (Expr.awaitParts names parts))
omit ih
include hcode

theorem expression_follows {s : List Frame} {ts us r : Tokens} {e : Expr} (hts : Awaits names code s ts us)
    (hovert : Overt names ts) (hr : ¬StartsCall names r) (h : expression template ts = .ok (e, r)) :
    r <:+ ts ∧ ∃ vs, Awaits names code s r vs ∧ vs.length < us.length ∧
      expression template' us = .ok (e.awaitCalls names false, vs) := by
  obtain ⟨hsuffix, vs, hvs, hlength, hread⟩ :=
    (simulates hcode (depthFor ts)).ternary _ _ _ _ _ hts hovert hr h
  refine ⟨hsuffix, vs, hvs, hlength, hread _ ?_⟩
  unfold depthFor
  omega

theorem only_follows {ts us : Tokens} {e : Expr} (hts : Awaits names code [] ts us) (hovert : Overt names ts)
    (h : only template ts = .ok e) : only template' us = .ok (e.awaitCalls names false) := by
  obtain ⟨⟨e', r⟩, he, hr⟩ := bind_eq_ok.1 h
  simp only at hr
  split at hr
  · rename_i p rest heof
    cases hr
    have hcall : ¬StartsCall names r := by
      refine not_startsCall_of_head fun a q rest' heq => ?_
      subst heq
      cases heof
    obtain ⟨_, vs, hvs, _, hread⟩ := expression_follows hcode hts hovert hcall he
    have hvs := hvs.skipNewlines
    rw [heof] at hvs
    obtain ⟨q, vs', heq, _⟩ := hvs.of_other rfl
    refine bind_eq_ok.2 ⟨_, hread, ?_⟩
    simp only [heq]
    rfl
  · exact absurd hr (fault_ne_ok _ _ _)

theorem statement_follows {ts us r : Tokens} {st : Statement} (hts : Awaits names code [] ts us)
    (hovert : Overt names ts) (hr : ¬StartsCall names r) (h : statement template ts = .ok (st, r)) :
    r <:+ ts ∧ ∃ vs, Awaits names code [] r vs ∧ vs.length < us.length ∧
      statement template' us = .ok (st.awaitCalls names, vs) := by
  unfold statement at h
  split at h
  · rename_i p rest
    obtain ⟨⟨name, ts₁⟩, hname, h⟩ := bind_eq_ok.1 h
    obtain ⟨ts₂, hassign, h⟩ := bind_eq_ok.1 h
    obtain ⟨⟨e, ts₃⟩, he, h⟩ := bind_eq_ok.1 h
    cases h
    obtain ⟨q, rfl⟩ := nameAfter_eq_ok.1 hname
    obtain ⟨t, rfl⟩ := expect_eq_ok.1 hassign
    obtain ⟨p', us₁, rfl, hus₁⟩ := hts.of_other rfl
    obtain ⟨q', us₂, rfl, hus₂⟩ := hus₁.of_name (by rintro ⟨_, _, _, hc⟩; cases hc)
    obtain ⟨t', us₃, rfl, hus₃⟩ := hus₂.of_other rfl
    have hsuffix : ts₂ <:+ ⟨.letWord, p⟩ :: ⟨.identifier name, q⟩ :: ⟨.assign, t⟩ :: ts₂ :=
      (List.suffix_cons _ _).trans ((List.suffix_cons _ _).trans (List.suffix_cons _ _))
    obtain ⟨hsuffix', vs, hvs, hlength, hread⟩ :=
      expression_follows hcode hus₃ (hovert.of_suffix hsuffix) hr he
    refine ⟨hsuffix'.trans hsuffix, vs, hvs, by simp only [List.length_cons]; omega, ?_⟩
    exact bind_eq_ok.2 ⟨_, nameAfter_eq_ok.2 ⟨q', rfl⟩, bind_eq_ok.2 ⟨_, expect_eq_ok.2 ⟨t', rfl⟩,
      bind_eq_ok.2 ⟨_, hread, rfl⟩⟩⟩
  · rename_i hlet
    obtain ⟨⟨e, ts₁⟩, he, h⟩ := map_eq_ok.1 h
    cases h
    obtain ⟨hsuffix, vs, hvs, hlength, hread⟩ := expression_follows hcode hts hovert hr he
    refine ⟨hsuffix, vs, hvs, hlength, ?_⟩
    unfold statement
    split
    · obtain ⟨q, rest, rfl⟩ := hts.head_of_other rfl
      exact absurd rfl (hlet _ _)
    · exact map_eq_ok.2 ⟨_, hread, rfl⟩

theorem statements_follow {ts us : Tokens} {p : Program} {n m : Nat} (hts : Awaits names code [] ts us)
    (hovert : Overt names ts) (h : statements template n ts = .ok p) (hm : us.length + 1 ≤ m) :
    statements template' m us = .ok (p.awaitCalls names) := by
  induction n generalizing ts us p m with
  | zero => exact absurd h (fault_ne_ok _ _ _)
  | succ n ih =>
    obtain ⟨m, rfl⟩ : ∃ k, m = k + 1 := ⟨m - 1, by omega⟩
    rcases statements_eq_ok.1 h with ⟨rfl | ⟨q, rest, rfl⟩, rfl⟩ | ⟨t, q, rest, rfl, ht, hrest⟩ |
      ⟨t, q, rest, st, r, ps, rfl, ht, hst, hr, hps, rfl⟩
    · cases hts with
      | nil => rfl
      | call hc _ _ => cases hc
    · obtain ⟨q', us₁, rfl, _⟩ := hts.of_other rfl
      rfl
    · obtain ⟨q', us₁, rfl, hus₁⟩ := hts.of_other (by rcases ht with rfl | rfl <;> rfl)
      simp only [List.length_cons] at hm
      exact statements_eq_ok.2 (Or.inr (Or.inl ⟨t, q', us₁, rfl, ht,
        ih hus₁ (hovert.of_suffix (List.suffix_cons _ _)) hrest (by omega)⟩))
    · have hcall : ¬StartsCall names r := by
        refine not_startsCall_of_head fun a q rest heq => ?_
        rcases hr _ _ _ heq with h | h | h <;> cases h
      obtain ⟨hsuffix, vs, hvs, hlength, hread⟩ := statement_follows hcode hts hovert hcall hst
      have hps := ih hvs (hovert.of_suffix hsuffix) hps (show vs.length + 1 ≤ m by omega)
      cases us with
      | nil => exact absurd hlength (Nat.not_lt_zero _)
      | cons t' us₁ =>
        obtain ⟨t', q'⟩ := t'
        refine statements_eq_ok.2 (Or.inr (Or.inr ⟨t', q', us₁, _, vs, _, rfl, ?_, hread, ?_, hps, rfl⟩))
        · intro ht'
          have hother : isOther t' = true := by rcases ht' with rfl | rfl | rfl <;> rfl
          obtain ⟨q, rest, heq⟩ := hts.head_of_other hother
          cases heq
          exact ht ht'
        · rintro t q rest rfl
          rcases hvs.head hcall with ⟨q, rest, rfl⟩ | ⟨_, _, _, _, rfl, rfl⟩
          · exact hr _ _ _ rfl
          · rcases hr _ _ _ rfl with h | h | h <;> cases h

theorem program_follows {ts us : Tokens} {p : Program} (hts : Awaits names code [] ts us)
    (hovert : Overt names ts) (h : program template ts = .ok p) :
    program template' us = .ok (p.awaitCalls names) := by
  refine statements_follow hcode hts hovert h ?_
  omega

end LiveSheet.Parser
