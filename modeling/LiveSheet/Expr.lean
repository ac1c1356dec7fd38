/-!
Expressions and scripts. An expression is one statement; a script is a list of them.
-/

namespace LiveSheet

inductive UnaryOp where
  | negate
  | not
  | plus
  deriving DecidableEq, Repr

inductive BinaryOp where
  | add
  | subtract
  | multiply
  | divide
  | remainder
  | equal
  | notEqual
  | less
  | lessEqual
  | greater
  | greaterEqual
  | and
  | or
  deriving DecidableEq, Repr

/-- A part of a template: literal text, or code in `α` to be shown in its place. -/
inductive Part (α : Type) where
  | text (s : String)
  | code (e : α)
  deriving Repr

inductive Expr where
  | number (n : Float)
  | string (s : String)
  | boolean (b : Bool)
  | null
  | array (items : List Expr)
  | template (parts : List (Part Expr))
  | identifier (name : String)
  /-- The word `this`, which stands for the variables. -/
  | self
  | member (object : Expr) (property : String)
  | index (object index : Expr)
  | call (callee : Expr) (args : List Expr)
  | unary (op : UnaryOp) (operand : Expr)
  | binary (op : BinaryOp) (left right : Expr)
  | ternary (condition ifTrue ifFalse : Expr)
  | await (operand : Expr)
  deriving Repr, Inhabited

/-- The dotted name of a call target: `roll` or `Dice.roll`. -/
def Expr.calleePath? : Expr → Option String
  | .identifier name => some name
  | .member (.identifier owner) property => some (owner ++ "." ++ property)
  | _ => none

inductive Statement where
  /-- `let name = value`. -/
  | bind (name : String) (value : Expr)
  | expr (e : Expr)
  deriving Repr

abbrev Program := List Statement

end LiveSheet
