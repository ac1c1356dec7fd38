import LiveSheet.Integration
import LiveSheet.MathLibrary
import LiveSheet.Await.Sequence
import LiveSheet.Proofs.Expr.Awaited

/-! Programs without `await`. An `await` makes its operand a value, so it cannot go where the operand is none:
in front of `this`, of the owner of a member or of a callee. -/

namespace LiveSheet

mutual

def Expr.eraseAwaits : Expr → Expr
  | .number n => .number n
  | .string s => .string s
  | .boolean b => .boolean b
  | .null => .null
  | .array items => .array (Expr.eraseAll items)
  | .template parts => .template (Expr.eraseParts parts)
  | .identifier name => .identifier name
  | .self => .self
  | .member object property => .member object.eraseAwaits property
  | .index object key => .index object.eraseAwaits key.eraseAwaits
  | .call callee args => .call callee.eraseAwaits (Expr.eraseAll args)
  | .unary op operand => .unary op operand.eraseAwaits
  | .binary op left right => .binary op left.eraseAwaits right.eraseAwaits
  | .ternary condition ifTrue ifFalse =>
    .ternary condition.eraseAwaits ifTrue.eraseAwaits ifFalse.eraseAwaits
  | .await operand => operand.eraseAwaits

def Expr.eraseAll : List Expr → List Expr
  | [] => []
  | e :: es => e.eraseAwaits :: Expr.eraseAll es

def Expr.eraseParts : List (Part Expr) → List (Part Expr)
  | [] => []
  | p :: ps => Expr.erasePart p :: Expr.eraseParts ps

def Expr.erasePart : Part Expr → Part Expr
  | .text s => .text s
  | .code e => .code e.eraseAwaits

end

def Statement.eraseAwaits : Statement → Statement
  | .bind name value => .bind name value.eraseAwaits
  | .expr e => .expr e.eraseAwaits

def Program.eraseAwaits (p : Program) : Program := p.map Statement.eraseAwaits

/-- What the `await`s in front of an expression stand before. -/
def Expr.awaitedCore? : Expr → Option Expr
  | .await e => some (e.awaitedCore?.getD e)
  | _ => none

/-- The `await`s hide no owner of a member: neither `this` nor a name with members of its own. -/
def Expr.ShowsOwner {σ : Type} (set : IntegrationSet σ) (object : Expr) : Prop :=
  object.awaitedCore? ≠ some .self ∧ ∀ name, object.awaitedCore? = some (.identifier name) →
    name ≠ MathLibrary.owner ∧ set.contains name = false

def Expr.isPath : Expr → Bool
  | .identifier _ | .member _ _ => true
  | _ => false

/-- The `await`s hide no callee: neither a function or an operation nor the owner of one. -/
def Expr.ShowsCallee (callee : Expr) : Prop :=
  (∀ core, callee.awaitedCore? = some core → core.isPath = false) ∧
  ∀ object name, callee = .member object name → ∀ owner, object.awaitedCore? ≠ some (.identifier owner)

mutual

/-- The expression and everything in it that can be evaluated has a property. What a call calls is not
evaluated. -/
def Expr.Everywhere (P : Expr → Prop) (e : Expr) : Prop :=
  P e ∧ match e with
    | .array items => Expr.AllEverywhere P items
    | .template parts => Expr.PartsEverywhere P parts
    | .member object _ => object.Everywhere P
    | .index object key => object.Everywhere P ∧ key.Everywhere P
    | .call _ args => Expr.AllEverywhere P args
    | .unary _ operand => operand.Everywhere P
    | .binary _ left right => left.Everywhere P ∧ right.Everywhere P
    | .ternary condition ifTrue ifFalse => condition.Everywhere P ∧ ifTrue.Everywhere P ∧ ifFalse.Everywhere P
    | .await operand => operand.Everywhere P
    | _ => True

def Expr.AllEverywhere (P : Expr → Prop) : List Expr → Prop
  | [] => True
  | e :: es => e.Everywhere P ∧ Expr.AllEverywhere P es

def Expr.PartsEverywhere (P : Expr → Prop) : List (Part Expr) → Prop
  | [] => True
  | p :: ps => Expr.PartEverywhere P p ∧ Expr.PartsEverywhere P ps

def Expr.PartEverywhere (P : Expr → Prop) : Part Expr → Prop
  | .text _ => True
  | .code e => e.Everywhere P

end

/-- No `await` of the expression hides what it reaches through. -/
def Expr.AwaitsValue {σ : Type} (set : IntegrationSet σ) : Expr → Prop
  | .member object _ => object.ShowsOwner set
  | .index object _ => object.awaitedCore? ≠ some .self
  | .call callee _ => callee.ShowsCallee
  | _ => True

def Expr.WritesNothing (e : Expr) : Prop := ∀ name ∈ Await.writers, ∀ args, e ≠ .call (.identifier name) args

def Statement.value : Statement → Expr
  | .bind _ value => value
  | .expr e => e

/-- Every `await` of the program stands in front of a value. -/
def Program.AwaitsValues {σ : Type} (set : IntegrationSet σ) (p : Program) : Prop :=
  ∀ s ∈ p, s.value.Everywhere (Expr.AwaitsValue set)

def Program.WritesNothing (p : Program) : Prop := ∀ s ∈ p, s.value.Everywhere Expr.WritesNothing

theorem Expr.awaitedCore?_of_some : ∀ {e core : Expr}, e.awaitedCore? = some core →
    core.awaitedCore? = none ∧ core.eraseAwaits = e.eraseAwaits
  | .await e, _, h => by
    obtain rfl := Option.some.inj h
    cases he : e.awaitedCore? with
    | none => exact ⟨by rw [Option.getD_none, he], by rw [Option.getD_none, eraseAwaits]⟩
    | some core =>
      obtain ⟨hnone, herase⟩ := awaitedCore?_of_some he
      exact ⟨hnone, by rw [Option.getD_some, herase, eraseAwaits]⟩

theorem Expr.isPath_awaitCalls (names : List String) (e : Expr) :
    (e.awaitCalls names false).isPath = e.isPath := by
  cases e with
  | call callee args =>
    rw [awaitCalls]
    split <;> rfl
  | _ => rw [awaitCalls] <;> rfl

theorem Expr.isPath_eraseAwaits {e : Expr} (h : e.awaitedCore? = none) : e.eraseAwaits.isPath = e.isPath := by
  cases e with
  | await e => cases h
  | _ => rw [eraseAwaits] <;> rfl

end LiveSheet
