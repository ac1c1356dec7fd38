/-!
Binary floats as exact numbers. A finite float is `± mantissa · 2 ^ exponent`; everything
that must be exact (whole numbers, remainders, decimal digits) is computed on that pair.
-/

namespace LiveSheet.Number

inductive Parts where
  | nan
  | infinite (negative : Bool)
  | finite (negative : Bool) (mantissa : Nat) (exponent : Int)
  deriving DecidableEq, Repr

/-- Reads sign, exponent field and fraction off the bits. Subnormal numbers have no hidden
bit and share the least exponent. -/
def parts (x : Float) : Parts :=
  let bits : Nat := x.toBits.toNat
  let negative := decide (Nat.pow 2 63 ≤ bits)
  let field : Nat := bits / Nat.pow 2 52 % Nat.pow 2 11
  let fraction := bits % Nat.pow 2 52
  if field = 2047 then (if fraction = 0 then .infinite negative else .nan)
  else if field = 0 then .finite negative fraction (-1074)
  else .finite negative (Nat.pow 2 52 + fraction) ((field : Int) - 1075)

/-- The float `± mantissa · 2 ^ exponent`, for pairs that a float can hold exactly. -/
def compose (negative : Bool) (mantissa : Nat) (exponent : Int) : Float :=
  let sign := if negative then Nat.pow 2 63 else 0
  if mantissa = 0 then .ofBits (.ofNat sign)
  else
    let target := max (exponent + mantissa.log2 - 52) (-1074)
    let m := if exponent ≤ target then mantissa >>> (target - exponent).toNat
      else mantissa <<< (exponent - target).toNat
    let field := if m < Nat.pow 2 52 then 0 else (target + 1075).toNat
    .ofBits (.ofNat (sign + field * Nat.pow 2 52 + m % Nat.pow 2 52))

def infinity : Float := 1.0 / 0.0

def nan : Float := 0.0 / 0.0

def whole? (x : Float) : Option Nat :=
  match parts x with
  | .finite _ m e =>
    if 0 ≤ e then some (m * Nat.pow 2 e.toNat)
    else if m % Nat.pow 2 (-e).toNat = 0 then some (m / Nat.pow 2 (-e).toNat) else none
  | _ => none

def isNegative (x : Float) : Bool :=
  match parts x with
  | .nan => false
  | .infinite negative => negative
  | .finite negative .. => negative

/-- The position a number selects in a list: whole numbers from zero on, either zero
included. -/
def index? (x : Float) : Option Nat :=
  if x < 0 then none else whole? x

/-- Whole numbers below `10 ^ 15` are written without fraction or exponent. -/
def short? (x : Float) : Option Nat := (whole? x).filter (· < Nat.pow 10 15)

/-- The remainder of truncated division: exact, with the sign of the dividend. -/
def remainder (x y : Float) : Float :=
  match parts x, parts y with
  | .finite negative m e, .finite _ n f =>
    if n = 0 then nan
    else
      let low := min e f
      compose negative ((m * Nat.pow 2 (e - low).toNat) % (n * Nat.pow 2 (f - low).toNat)) low
  | .finite .., .infinite _ => x
  | _, _ => nan

def truncate (x : Float) : Float := if x < 0 then x.ceil else x.floor

/-- The lesser of two numbers. A NaN yields to the other number, and the second of two equal
numbers is taken. -/
def lesser (x y : Float) : Float := if x.isNaN || y ≤ x then y else x

/-- The greater of two numbers. A NaN yields to the other number, and the second of two equal
numbers is taken. -/
def greater (x y : Float) : Float := if x.isNaN || x ≤ y then y else x

end LiveSheet.Number
