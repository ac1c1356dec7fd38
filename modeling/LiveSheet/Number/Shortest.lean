import LiveSheet.Number.Binary

/-!
The fewest decimal digits that read back to a float. Every real between the midpoints to
the two neighbouring floats rounds to the float, the midpoints included when its mantissa is
even. The coarsest power of ten that has a multiple in that interval gives the digits; of
two multiples the nearer is taken.
-/

namespace LiveSheet.Number

/-- `digits · 10 ^ exponent`. -/
structure Decimal where
  digits : Nat
  exponent : Int
  deriving DecidableEq, Repr

/-- Which of two equally near decimals is taken. -/
inductive Tie where
  | even
  | upward
  deriving DecidableEq, Repr

/-- The reals that round to `mantissa · 2 ^ exponent`, in quarters of the last binary place.
The gap below a power of two is half the gap above it. -/
structure Rounding where
  low : Nat
  value : Nat
  high : Nat
  closed : Bool

def Rounding.ofFinite (mantissa : Nat) (exponent : Int) : Rounding where
  low := 4 * mantissa - (if mantissa = Nat.pow 2 52 ∧ -1074 < exponent then 1 else 2)
  value := 4 * mantissa
  high := 4 * mantissa + 2
  closed := mantissa % 2 = 0

/-- Whether `c · unit` rounds to the float, with the interval scaled by `scale`. -/
def Rounding.contains (r : Rounding) (scale unit c : Nat) : Bool :=
  if r.closed then r.low * scale ≤ c * unit && c * unit ≤ r.high * scale
  else r.low * scale < c * unit && c * unit < r.high * scale

/-- The multiple of `unit` nearest to the float among those that round to it. Only the two
neighbours of the float can be nearest. -/
def Rounding.nearest? (r : Rounding) (tie : Tie) (scale unit : Nat) : Option Nat :=
  let c := r.value * scale / unit
  let rest := r.value * scale % unit
  match r.contains scale unit c, r.contains scale unit (c + 1) with
  | false, false => none
  | true, false => some c
  | false, true => some (c + 1)
  | true, true =>
    if 2 * rest < unit then some c
    else if unit < 2 * rest then some (c + 1)
    else match tie with
      | .even => some (if c % 2 = 0 then c else c + 1)
      | .upward => some (c + 1)

/-- Tries the grids of `10 ^ p`, `10 ^ (p - 1)`, … in turn. -/
def Rounding.search (r : Rounding) (tie : Tie) (exponent : Int) : Nat → Int → Decimal
  | 0, p => ⟨0, p⟩
  | steps + 1, p =>
    let scale := Nat.pow 2 (exponent - 2).toNat * Nat.pow 10 (-p).toNat
    let unit := Nat.pow 2 (2 - exponent).toNat * Nat.pow 10 p.toNat
    match r.nearest? tie scale unit with
    | some c => ⟨c, p⟩
    | none => r.search tie exponent steps (p - 1)

/-- The shortest decimal of `mantissa · 2 ^ exponent`, for a positive mantissa. The first
grid tried is coarser than the number, and seventeen digits always suffice. -/
def shortest (tie : Tie) (mantissa : Nat) (exponent : Int) : Decimal :=
  let start := Int.fdiv ((mantissa.log2 + exponent) * 30103) 100000 + 2
  (Rounding.ofFinite mantissa exponent).search tie exponent 24 start

end LiveSheet.Number
