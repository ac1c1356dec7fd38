import LiveSheet.Number.Binary

/-!
Reading decimal text. A number is an optional sign followed by digits with an optional point
and exponent, or by one of the words `inf`, `infinity` and `nan` in any case. The value is
the float nearest to the decimal.
-/

namespace LiveSheet.Number

def digitsValue (cs : List Char) : Nat := cs.foldl (fun n c => 10 * n + (c.toNat - '0'.toNat)) 0

/-- The float nearest to `m · 10 ^ e`. Exponents out of reach are settled by the number of
digits, so no large power is ever formed. -/
def ofDecimal (m : Nat) (e : Int) : Float :=
  let magnitude := ((Nat.toDigits 10 m).length : Int) + e
  if m = 0 then 0
  else if 310 < magnitude then infinity
  else if magnitude < -330 then 0
  else .ofScientific m (e < 0) e.natAbs

def exponent? : List Char → Option Int
  | [] => some 0
  | c :: rest =>
    if c = 'e' ∨ c = 'E' then
      match rest with
      | '-' :: ds => (digits? ds).map fun n => -(n : Int)
      | '+' :: ds => (digits? ds).map fun n => (n : Int)
      | ds => (digits? ds).map fun n => (n : Int)
    else none
where
  digits? (ds : List Char) : Option Nat :=
    if ds.isEmpty || !ds.all Char.isDigit then none else some (digitsValue ds)

/-- An unsigned decimal: digits on at least one side of an optional point, then an optional
exponent. -/
def decimal? (cs : List Char) : Option Float :=
  let whole := cs.takeWhile Char.isDigit
  let (fraction, rest) := match cs.dropWhile Char.isDigit with
    | '.' :: r => (r.takeWhile Char.isDigit, r.dropWhile Char.isDigit)
    | r => ([], r)
  if whole.isEmpty && fraction.isEmpty then none
  else (exponent? rest).map fun e => ofDecimal (digitsValue (whole ++ fraction)) (e - fraction.length)

def unsigned? (cs : List Char) : Option Float :=
  let word := String.ofList (cs.map Char.toLower)
  if word = "inf" ∨ word = "infinity" then some infinity
  else if word = "nan" then some nan
  else decimal? cs

def read? : List Char → Option Float
  | '-' :: cs => (unsigned? cs).map (- ·)
  | '+' :: cs => unsigned? cs
  | cs => unsigned? cs

end LiveSheet.Number
