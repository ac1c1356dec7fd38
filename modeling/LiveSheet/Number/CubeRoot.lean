import LiveSheet.Number.Binary

/-!
Cube roots, rounded to the nearest float. A number is scaled by a power of eight until its
root has one bit more than a float holds; no root lies halfway between two floats, so that
bit decides.
-/

namespace LiveSheet.Number

/-- Extends `root` by `bits` bits to the greatest number whose cube is at most `n`. -/
def extendRoot (n : Nat) : Nat → Nat → Nat
  | 0, root => root
  | bits + 1, root =>
    let root' := root + Nat.pow 2 bits
    if Nat.pow root' 3 ≤ n then extendRoot n bits root' else extendRoot n bits root

def finiteCubeRoot (negative : Bool) (mantissa : Nat) (exponent : Int) : Float :=
  if mantissa = 0 then compose negative 0 0
  else
    let shift : Int := 159 - mantissa.log2
    let shift := shift + (exponent - shift) % 3
    let root := extendRoot (mantissa <<< shift.toNat) 54 0
    compose negative ((root + 1) / 2) ((exponent - shift) / 3 + 1)

def cubeRoot (x : Float) : Float :=
  match parts x with
  | .finite negative m e => finiteCubeRoot negative m e
  | _ => x

end LiveSheet.Number
