import LiveSheet.Error
import LiveSheet.Number.CubeRoot

/-!
The functions and constants that every expression can use. A function takes any number of
arguments; one that is missing counts as NaN.
-/

namespace LiveSheet.MathLibrary

open Number

def owner : String := "Math"

def argument (args : List Float) (i : Nat) : Float := args[i]?.getD nan

/-- A half is rounded upward, also below zero. -/
def round (x : Float) : Float := (x + 0.5).floor

/-- The sign of a number, with zeros and NaN as they are. -/
def sign (x : Float) : Float := if x.isNaN || x == 0 then x else if x < 0 then -1 else 1

/-- The length of a vector. The sum starts at negative zero, which no other number changes. -/
def hypotenuse (args : List Float) : Float := (args.foldl (fun s x => s + x * x) (-0.0)).sqrt

def least (args : List Float) : Float :=
  if args.any Float.isNaN then nan else args.foldl lesser infinity

def greatest (args : List Float) : Float :=
  if args.any Float.isNaN then nan else args.foldl greater (-infinity)

/-- The number nearest to `x` between two bounds. The upper bound wins if they cross, and a
bound that is NaN does not count. -/
def between (x low high : Float) : Float := lesser (greater x low) high

def unary (f : Float → Float) (args : List Float) : Float := f (argument args 0)

def binary (f : Float → Float → Float) (args : List Float) : Float :=
  f (argument args 0) (argument args 1)

def functions : List (String × (List Float → Float)) := [
  ("abs", unary Float.abs),
  ("ceil", unary Float.ceil),
  ("floor", unary Float.floor),
  ("round", unary round),
  ("trunc", unary truncate),
  ("sign", unary sign),
  ("sqrt", unary Float.sqrt),
  ("cbrt", unary cubeRoot),
  ("pow", binary Float.pow),
  ("exp", unary Float.exp),
  ("log", unary Float.log),
  ("log10", unary Float.log10),
  ("log2", unary Float.log2),
  ("sin", unary Float.sin),
  ("cos", unary Float.cos),
  ("tan", unary Float.tan),
  ("asin", unary Float.asin),
  ("acos", unary Float.acos),
  ("atan", unary Float.atan),
  ("atan2", binary Float.atan2),
  ("hypot", hypotenuse),
  ("min", least),
  ("max", greatest),
  ("clamp", fun args => between (argument args 0) (argument args 1) (argument args 2))]

def constants : List (String × Float) := [
  ("PI", 3.141592653589793),
  ("E", 2.718281828459045),
  ("LN2", 0.6931471805599453),
  ("LN10", 2.302585092994046),
  ("SQRT2", 1.4142135623730951),
  ("Infinity", infinity),
  ("NaN", nan)]

def hasFunction (name : String) : Bool := (functions.lookup name).isSome

def constant? (name : String) : Option Value := (constants.lookup name).map .number

/-- The numbers of the arguments. An array contributes its items, so that `max` works on a
list. -/
def numbers (args : List Value) : List Float :=
  args.flatMap fun
    | .array items => items.map Value.toNumber
    | v => [v.toNumber]

def call (name : String) (args : List Value) : Except SheetError Value :=
  match functions.lookup name with
  | some f => .ok (.number (f (numbers args)))
  | none => .error (.evaluation (.unknownOperation owner name))

end LiveSheet.MathLibrary
