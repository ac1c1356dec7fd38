import LiveSheet.Number.Binary

/-!
Numbers with a fixed number of decimal places. The exact value is rounded, a half to the
even neighbour.
-/

namespace LiveSheet.Number

def roundDiv (n d : Nat) : Nat :=
  let q := n / d
  let r := 2 * (n % d)
  if r < d then q else if d < r then q + 1 else q + q % 2

/-- A finite number that is not negative, with `places` decimal places. -/
def fixed (places : Nat) (x : Float) : String :=
  match parts x with
  | .finite _ m e =>
    let n := roundDiv (m * Nat.pow 10 places * Nat.pow 2 e.toNat) (Nat.pow 2 (-e).toNat)
    let digits := Nat.toDigits 10 n
    let digits := List.replicate (places + 1 - digits.length) '0' ++ digits
    let whole := digits.take (digits.length - places)
    String.ofList (if places = 0 then whole else whole ++ '.' :: digits.drop (digits.length - places))
  | _ => ""

end LiveSheet.Number
