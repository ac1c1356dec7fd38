import LiveSheet.Proofs.Expr.Descent

/-! Programs in which the calls of some names are awaited, and the same for tokens: a call is put
into parentheses behind `await`, unless one stands there already. -/

namespace LiveSheet

/-- The expression is one of the names, a bare one or one with its owner. -/
def Expr.isNamed (names : List String) (e : Expr) : Bool := e.calleePath?.any names.contains

mutual

/-- Awaits the calls of the names. `awaited` says whether the expression stands right behind
`await`. -/
def Expr.awaitCalls (names : List String) (awaited : Bool) : Expr → Expr
  | .number n => .number n
  | .string s => .string s
  | .boolean b => .boolean b
  | .null => .null
  | .array items => .array (Expr.awaitAll names items)
  | .template parts => .template (Expr.awaitParts names parts)
  | .identifier name => .identifier name
  | .self => .self
  | .member object property => .member (object.awaitCalls names false) property
  | .index object key => .index (object.awaitCalls names false) (key.awaitCalls names false)
  | .call callee args =>
    let call := Expr.call (callee.awaitCalls names false) (Expr.awaitAll names args)
    if !awaited && callee.isNamed names then .await call else call
  | .unary op operand => .unary op (operand.awaitCalls names false)
  | .binary op left right => .binary op (left.awaitCalls names false) (right.awaitCalls names false)
  | .ternary condition ifTrue ifFalse => .ternary (condition.awaitCalls names false)
    (ifTrue.awaitCalls names false) (ifFalse.awaitCalls names false)
  | .await operand => .await (operand.awaitCalls names true)

def Expr.awaitAll (names : List String) : List Expr → List Expr
  | [] => []
  | e :: es => e.awaitCalls names false :: Expr.awaitAll names es

def Expr.awaitParts (names : List String) : List (Part Expr) → List (Part Expr)
  | [] => []
  | p :: ps => Expr.awaitPart names p :: Expr.awaitParts names ps

def Expr.awaitPart (names : List String) : Part Expr → Part Expr
  | .text s => .text s
  | .code e => .code (e.awaitCalls names false)

end

def Statement.awaitCalls (names : List String) : Statement → Statement
  | .bind name value => .bind name (value.awaitCalls names false)
  | .expr e => .expr (e.awaitCalls names false)

def Program.awaitCalls (names : List String) (p : Program) : Program := p.map (Statement.awaitCalls names)

namespace Parser

variable (names : List String)

/-- The tokens of a callee that is one of the names, and the tokens after it. -/
inductive Callee : Expr → Tokens → Tokens → Prop where
  | name {f p rest} (h : f ∈ names) : Callee (.identifier f) (⟨.identifier f, p⟩ :: rest) rest
  | path {a b p q r rest} (h : a ++ "." ++ b ∈ names) : Callee (.member (.identifier a) b)
    (⟨.identifier a, p⟩ :: ⟨.dot, q⟩ :: ⟨.identifier b, r⟩ :: rest) rest

/-- A call of one of the names stands at the start. -/
def StartsCall (ts : Tokens) : Prop := ∃ c p rest, Callee names c ts (⟨.leftParen, p⟩ :: rest)

/-- An open parenthesis: one that stays as it is, that of a call that gets its `await`, or that of
a call that has one already. -/
inductive Frame where
  | plain
  | wrapped
  | awaited

def isOther : Token → Bool
  | .template _ | .identifier _ | .leftParen | .rightParen | .dot | .awaitWord => false
  | _ => true

/-- The second tokens are the first ones with the calls awaited. `code` says which templates become
which, and the list holds the parentheses that are open. -/
inductive Awaits (code : String → String → Prop) : List Frame → Tokens → Tokens → Prop where
  | nil : Awaits code [] [] []
  | template {s raw raw' p p' ts ts'} (hcode : code raw raw') (hrest : Awaits code s ts ts') :
    Awaits code s (⟨.template raw, p⟩ :: ts) (⟨.template raw', p'⟩ :: ts')
  | token {s t p p' ts ts'} (hother : isOther t = true) (hrest : Awaits code s ts ts') :
    Awaits code s (⟨t, p⟩ :: ts) (⟨t, p'⟩ :: ts')
  | name {s a p p' ts ts'} (hcall : ¬StartsCall names (⟨.identifier a, p⟩ :: ts))
    (hrest : Awaits code s ts ts') : Awaits code s (⟨.identifier a, p⟩ :: ts) (⟨.identifier a, p'⟩ :: ts')
  | member {s b p p' q q' ts ts'} (hrest : Awaits code s ts ts') : Awaits code s
    (⟨.dot, p⟩ :: ⟨.identifier b, q⟩ :: ts) (⟨.dot, p'⟩ :: ⟨.identifier b, q'⟩ :: ts')
  | dot {s p p' ts ts'} (hmember : ∀ b q rest, ts ≠ ⟨.identifier b, q⟩ :: rest)
    (hrest : Awaits code s ts ts') : Awaits code s (⟨.dot, p⟩ :: ts) (⟨.dot, p'⟩ :: ts')
  | opening {s p p' ts ts'} (hrest : Awaits code (.plain :: s) ts ts') :
    Awaits code s (⟨.leftParen, p⟩ :: ts) (⟨.leftParen, p'⟩ :: ts')
  | close {s p p' ts ts'} (hrest : Awaits code s ts ts') :
    Awaits code (.plain :: s) (⟨.rightParen, p⟩ :: ts) (⟨.rightParen, p'⟩ :: ts')
  | closeWrapped {s p p' q ts ts'} (hrest : Awaits code s ts ts') : Awaits code (.wrapped :: s)
    (⟨.rightParen, p⟩ :: ts) (⟨.rightParen, p'⟩ :: ⟨.rightParen, q⟩ :: ts')
  | closeAwaited {s p p' ts ts'} (hsuffix : ∀ t q rest, ts = ⟨t, q⟩ :: rest → ¬isSuffix t)
    (hrest : Awaits code s ts ts') :
    Awaits code (.awaited :: s) (⟨.rightParen, p⟩ :: ts) (⟨.rightParen, p'⟩ :: ts')
  | call {s c p p' q q' us us' ts ts'} (hcallee : Callee names c us (⟨.leftParen, p⟩ :: ts))
    (hcallee' : Callee names c us' (⟨.leftParen, p'⟩ :: ts')) (hrest : Awaits code (.wrapped :: s) ts ts') :
    Awaits code s us (⟨.leftParen, q⟩ :: ⟨.awaitWord, q'⟩ :: us')
  | await {s p p' ts ts'} (hcall : ¬StartsCall names ts) (hrest : Awaits code s ts ts') :
    Awaits code s (⟨.awaitWord, p⟩ :: ts) (⟨.awaitWord, p'⟩ :: ts')
  | awaitedCall {s c p p' q q' us us' ts ts'} (hcallee : Callee names c us (⟨.leftParen, p⟩ :: ts))
    (hcallee' : Callee names c us' (⟨.leftParen, p'⟩ :: ts')) (hrest : Awaits code (.awaited :: s) ts ts') :
    Awaits code s (⟨.awaitWord, q⟩ :: us) (⟨.awaitWord, q'⟩ :: us')

variable {names} {code : String → String → Prop} {s : List Frame} {t : Token} {p q : Position} {ts us : Tokens}

theorem not_startsCall_of_head (h : ∀ a q rest, ts ≠ ⟨.identifier a, q⟩ :: rest) : ¬StartsCall names ts := by
  rintro ⟨c, p, rest, hc⟩
  cases hc with
  | name _ => exact h _ _ _ rfl
  | path _ => exact h _ _ _ rfl

theorem not_startsCall_cons (h : ∀ a, t ≠ .identifier a) : ¬StartsCall names (⟨t, p⟩ :: ts) := by
  refine not_startsCall_of_head fun a q rest heq => ?_
  cases heq
  exact h a rfl

namespace Awaits

theorem of_other (h : Awaits names code s (⟨t, p⟩ :: ts) us) (ht : isOther t = true) :
    ∃ p' us', us = ⟨t, p'⟩ :: us' ∧ Awaits names code s ts us' := by
  cases h with
  | token _ hrest => exact ⟨_, _, rfl, hrest⟩
  | call hc _ _ => cases hc <;> cases ht
  | _ => cases ht

theorem of_opening (h : Awaits names code s (⟨.leftParen, p⟩ :: ts) us) :
    ∃ p' us', us = ⟨.leftParen, p'⟩ :: us' ∧ Awaits names code (.plain :: s) ts us' := by
  cases h with
  | opening hrest => exact ⟨_, _, rfl, hrest⟩
  | token h _ => cases h
  | call hc _ _ => cases hc

theorem of_close (h : Awaits names code (.plain :: s) (⟨.rightParen, p⟩ :: ts) (⟨.rightParen, q⟩ :: us)) :
    Awaits names code s ts us := by
  cases h with
  | close hrest => exact hrest
  | token h _ => cases h

theorem of_closeWrapped (h : Awaits names code (.wrapped :: s) (⟨.rightParen, p⟩ :: ts) (⟨.rightParen, q⟩ :: us)) :
    ∃ p' us', us = ⟨.rightParen, p'⟩ :: us' ∧ Awaits names code s ts us' := by
  cases h with
  | closeWrapped hrest => exact ⟨_, _, rfl, hrest⟩
  | token h _ => cases h

theorem of_closeAwaited (h : Awaits names code (.awaited :: s) (⟨.rightParen, p⟩ :: ts) (⟨.rightParen, q⟩ :: us)) :
    (∀ t q rest, ts = ⟨t, q⟩ :: rest → ¬isSuffix t) ∧ Awaits names code s ts us := by
  cases h with
  | closeAwaited hsuffix hrest => exact ⟨hsuffix, hrest⟩
  | token h _ => cases h

theorem of_member {b : String} (h : Awaits names code s (⟨.dot, p⟩ :: ⟨.identifier b, q⟩ :: ts) us) :
    ∃ p' q' us', us = ⟨.dot, p'⟩ :: ⟨.identifier b, q'⟩ :: us' ∧ Awaits names code s ts us' := by
  cases h with
  | member hrest => exact ⟨_, _, _, rfl, hrest⟩
  | token h _ => cases h
  | dot hmember _ => exact absurd rfl (hmember _ _ _)
  | call hc _ _ => cases hc

theorem of_closing (h : Awaits names code s (⟨t, p⟩ :: ts) us) (ht : t = .rightParen ∨ t = .rightBracket) :
    ∃ p' us', us = ⟨t, p'⟩ :: us' := by
  rcases ht with rfl | rfl
  · cases h with
    | token h _ => cases h
    | call hc _ _ => cases hc
    | _ => exact ⟨_, _, rfl⟩
  · obtain ⟨p', us', rfl, _⟩ := h.of_other rfl
    exact ⟨p', us', rfl⟩

theorem head_ne_closing {t' close : Token} (h : Awaits names code s (⟨t, p⟩ :: ts) (⟨t', q⟩ :: us))
    (hclose : close = .rightParen ∨ close = .rightBracket) (ht : t ≠ close) : t' ≠ close := by
  cases h with
  | template _ _ => rcases hclose with rfl | rfl <;> simp
  | call _ _ _ => rcases hclose with rfl | rfl <;> simp
  | _ => exact ht

theorem of_template {raw : String} (h : Awaits names code s (⟨.template raw, p⟩ :: ts) us) :
    ∃ raw' p' us', us = ⟨.template raw', p'⟩ :: us' ∧ code raw raw' ∧ Awaits names code s ts us' := by
  cases h with
  | template hcode hrest => exact ⟨_, _, _, rfl, hcode, hrest⟩
  | token h _ => cases h
  | call hc _ _ => cases hc

theorem of_name {a : String} (h : Awaits names code s (⟨.identifier a, p⟩ :: ts) us)
    (hcall : ¬StartsCall names (⟨.identifier a, p⟩ :: ts)) :
    ∃ p' us', us = ⟨.identifier a, p'⟩ :: us' ∧ Awaits names code s ts us' := by
  cases h with
  | name _ hrest => exact ⟨_, _, rfl, hrest⟩
  | token h _ => cases h
  | call hc _ _ => exact absurd ⟨_, _, _, hc⟩ hcall

theorem head (h : Awaits names code s ts (⟨t, p⟩ :: us)) (hcall : ¬StartsCall names ts) :
    (∃ q rest, ts = ⟨t, q⟩ :: rest) ∨ ∃ raw raw' q rest, t = .template raw' ∧ ts = ⟨.template raw, q⟩ :: rest := by
  cases h with
  | template _ _ => exact Or.inr ⟨_, _, _, _, rfl, rfl⟩
  | call hc _ _ => exact absurd ⟨_, _, _, hc⟩ hcall
  | _ => exact Or.inl ⟨_, _, rfl⟩

theorem head_of_other (h : Awaits names code s ts (⟨t, p⟩ :: us)) (ht : isOther t = true) :
    ∃ q rest, ts = ⟨t, q⟩ :: rest := by
  cases h with
  | token _ _ => exact ⟨_, _, rfl⟩
  | _ => cases ht

theorem skipNewlines (h : Awaits names code s ts us) :
    Awaits names code s (skipNewlines ts) (Parser.skipNewlines us) := by
  induction h with
  | @token s t p p' ts ts' hother hrest ih =>
    by_cases ht : t = .newline
    · subst ht
      exact ih
    · have hskip : ∀ q rest, Parser.skipNewlines (⟨t, q⟩ :: rest) = ⟨t, q⟩ :: rest := by
        intro q rest
        unfold Parser.skipNewlines
        split
        · rename_i heq
          cases heq
          exact absurd rfl ht
        · rfl
      rw [hskip, hskip]
      exact .token hother hrest
  | nil => exact .nil
  | template hcode hrest _ => exact .template hcode hrest
  | name hcall hrest _ => exact .name hcall hrest
  | member hrest _ => exact .member hrest
  | dot hmember hrest _ => exact .dot hmember hrest
  | opening hrest _ => exact .opening hrest
  | close hrest _ => exact .close hrest
  | closeWrapped hrest _ => exact .closeWrapped hrest
  | closeAwaited hsuffix hrest _ => exact .closeAwaited hsuffix hrest
  | @call _ _ _ _ _ _ us _ _ _ hc hc' hrest _ =>
    have hsame : Parser.skipNewlines us = us := by cases hc <;> rfl
    rw [hsame]
    exact .call hc hc' hrest
  | await hcall hrest _ => exact .await hcall hrest
  | awaitedCall hc hc' hrest _ => exact .awaitedCall hc hc' hrest

end Awaits

end Parser

end LiveSheet
