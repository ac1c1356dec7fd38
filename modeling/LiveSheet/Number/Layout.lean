import LiveSheet.Number.Shortest

/-!
Number formats. A format is a record of decisions; the digits are always the fewest that
read back.
-/

namespace LiveSheet.Number

structure Layout where
  tie : Tie
  /-- Decimal exponents of the first digit that are written positionally; all when absent. -/
  positional : Option (Int × Int)
  /-- Whether whole numbers end in `.0`. -/
  pointZero : Bool
  nan : String
  infinity : String
  negativeInfinity : String

def plain : Layout where
  tie := .upward
  positional := none
  pointZero := false
  nan := "NaN"
  infinity := "inf"
  negativeInfinity := "-inf"

/-- Numbers in data files: positional from `10 ^ -5` up to `10 ^ 16`, with a point in every
number, and `null` for what the format cannot express. -/
def dataFile : Layout where
  tie := .even
  positional := some (-5, 15)
  pointZero := true
  nan := "null"
  infinity := "null"
  negativeInfinity := "null"

def zeros (n : Nat) : List Char := List.replicate n '0'

def Layout.writePositional (layout : Layout) (digits : List Char) (exponent : Int) : List Char :=
  if 0 ≤ exponent then
    digits ++ zeros exponent.toNat ++ (if layout.pointZero then ['.', '0'] else [])
  else
    let places := (-exponent).toNat
    if places < digits.length then
      digits.take (digits.length - places) ++ '.' :: digits.drop (digits.length - places)
    else
      '0' :: '.' :: zeros (places - digits.length) ++ digits

/-- One digit before the point, and an exponent that always has a sign. -/
def Layout.writeScientific (_layout : Layout) (digits : List Char) (first : Int) : List Char :=
  let mantissa := match digits with
    | [] => []
    | [d] => [d]
    | d :: rest => d :: '.' :: rest
  mantissa ++ 'e' :: (if first < 0 then '-' else '+') :: Nat.toDigits 10 first.natAbs

def Layout.writeDecimal (layout : Layout) (d : Decimal) : List Char :=
  let digits := Nat.toDigits 10 d.digits
  let first := d.exponent + digits.length - 1
  match layout.positional with
  | some (least, greatest) =>
    if least ≤ first ∧ first ≤ greatest then layout.writePositional digits d.exponent
    else layout.writeScientific digits first
  | none => layout.writePositional digits d.exponent

/-- The text of a float. Negative zero keeps its sign. -/
def Layout.write (layout : Layout) (x : Float) : String :=
  match parts x with
  | .nan => layout.nan
  | .infinite negative => if negative then layout.negativeInfinity else layout.infinity
  | .finite negative m e =>
    let d := if m = 0 then ⟨0, 0⟩ else shortest layout.tie m e
    String.ofList ((if negative then ['-'] else []) ++ layout.writeDecimal d)

def writeWhole (negative : Bool) (n : Nat) : String :=
  String.ofList ((if negative ∧ n ≠ 0 then ['-'] else []) ++ Nat.toDigits 10 n)

def Layout.writeShort (layout : Layout) (x : Float) : String :=
  match short? x with
  | some n => writeWhole (isNegative x) n
  | none => layout.write x

end LiveSheet.Number
