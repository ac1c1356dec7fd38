import LiveSheet.Expr
import LiveSheet.Value.Text

/-!
The operators on values.
-/

namespace LiveSheet.Value

def isText : Value → Bool
  | string _ => true
  | array _ => true
  | _ => false

/-- Joins texts if a string or an array takes part, and adds numbers otherwise. -/
def add (a b : Value) : Value :=
  if a.isText || b.isText then string (a.display ++ b.display) else number (a.toNumber + b.toNumber)

/-- Compares strings as strings and everything else as numbers. -/
def compareWith (texts : String → String → Bool) (numbers : Float → Float → Bool) : Value → Value → Value
  | string a, string b => bool (texts a b)
  | a, b => bool (numbers a.toNumber b.toNumber)

def unary (op : UnaryOp) (a : Value) : Value :=
  match op with
  | .negate => number (-a.toNumber)
  | .plus => number a.toNumber
  | .not => bool (!a.isTruthy)

/-- Applies an operator to two values. The logical operators yield the operand that decides. -/
def binary (op : BinaryOp) (a b : Value) : Value :=
  match op with
  | .add => a.add b
  | .subtract => number (a.toNumber - b.toNumber)
  | .multiply => number (a.toNumber * b.toNumber)
  | .divide => number (a.toNumber / b.toNumber)
  | .remainder => number (Number.remainder a.toNumber b.toNumber)
  | .equal => bool (a.looseEq b)
  | .notEqual => bool (!a.looseEq b)
  | .less => compareWith (fun s t => s < t) (fun x y => x < y) a b
  | .lessEqual => compareWith (fun s t => !(t < s)) (fun x y => x ≤ y) a b
  | .greater => compareWith (fun s t => t < s) (fun x y => y < x) a b
  | .greaterEqual => compareWith (fun s t => !(s < t)) (fun x y => y ≤ x) a b
  | .and => if a.isTruthy then b else a
  | .or => if a.isTruthy then a else b

end LiveSheet.Value
