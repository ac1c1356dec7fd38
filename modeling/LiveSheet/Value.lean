import LiveSheet.Number.Decimal
import LiveSheet.Text.Class

/-!
Values of variables and expressions, and how they turn into numbers and truth values. All
numbers are floats.
-/

namespace LiveSheet

inductive Value where
  | null
  | bool (b : Bool)
  | number (n : Float)
  | string (s : String)
  | array (items : List Value)
  deriving Repr, Inhabited

namespace Value

inductive Kind where
  | null
  | boolean
  | number
  | string
  | array
  deriving DecidableEq, Repr

def Kind.text : Kind → String
  | .null => "null"
  | .boolean => "boolean"
  | .number => "number"
  | .string => "string"
  | .array => "array"

def kind : Value → Kind
  | null => .null
  | bool _ => .boolean
  | number _ => .number
  | string _ => .string
  | array _ => .array

def isNull : Value → Bool
  | null => true
  | _ => false

def number? : Value → Option Float
  | number n => some n
  | _ => none

/-- Booleans count as 0 and 1, null as 0. A string is read as a number without its outer
blanks, and the empty one is 0. Everything else is not a number. -/
def toNumber : Value → Float
  | number n => n
  | bool b => if b then 1 else 0
  | null => 0
  | string s =>
    match Text.trim s.toList with
    | [] => 0
    | cs => (Number.read? cs).getD Number.nan
  | array _ => Number.nan

def isTruthy : Value → Bool
  | null => false
  | bool b => b
  | number n => n != 0 && !n.isNaN
  | string s => s != ""
  | array _ => true

mutual

/-- Equality of values of one type. Numbers compare as numbers: the zeros are equal and
NaN differs from itself. -/
def same : Value → Value → Bool
  | null, null => true
  | bool a, bool b => a == b
  | number a, number b => a == b
  | string a, string b => a == b
  | array a, array b => sameItems a b
  | _, _ => false

def sameItems : List Value → List Value → Bool
  | [], [] => true
  | a :: as, b :: bs => same a b && sameItems as bs
  | _, _ => false

end

/-- Loose equality: null equals only null, strings and arrays only their like, and all else
compares as numbers. -/
def looseEq : Value → Value → Bool
  | null, null => true
  | null, _ => false
  | _, null => false
  | string a, string b => a == b
  | array a, array b => sameItems a b
  | array _, _ => false
  | _, array _ => false
  | a, b => a.toNumber == b.toNumber

/-- The item at a position of an array or the character at a position of a string, null
beyond the end. Nothing else has items. -/
def item? (v : Value) (position : Nat) : Option Value :=
  match v with
  | array items => some (items[position]?.getD null)
  | string s => some ((s.toList[position]?.map fun c => string c.toString).getD null)
  | _ => none

end Value

end LiveSheet
