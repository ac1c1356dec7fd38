import LiveSheet.Datum
import LiveSheet.Number.Decimal

/-!
Reading JSON text. Every well formed text has its data. Brackets that nest more than 127
deep, a surrogate escape without its other half and a number beyond the floats are well
formed, but invalid data.
-/

namespace LiveSheet.Json

def isSpace (c : Char) : Bool := c == ' ' || c == '\n' || c == '\t' || c == '\r'

def skipSpace (cs : List Char) : List Char := cs.dropWhile isSpace

def hexValue? (c : Char) : Option Nat :=
  if c.isDigit then some (c.toNat - '0'.toNat)
  else if 'a' ≤ c ∧ c ≤ 'f' then some (c.toNat - 'a'.toNat + 10)
  else if 'A' ≤ c ∧ c ≤ 'F' then some (c.toNat - 'A'.toNat + 10)
  else none

def hexNumber? (cs : List Char) : Option Nat :=
  cs.foldlM (fun n c => (hexValue? c).map (16 * n + ·)) 0

def isHighSurrogate (n : Nat) : Bool := 0xD800 ≤ n && n < 0xDC00

def isLowSurrogate (n : Nat) : Bool := 0xDC00 ≤ n && n < 0xE000

def escape? (c : Char) : Option Char :=
  match c with
  | '"' => some '"'
  | '\\' => some '\\'
  | '/' => some '/'
  | 'b' => some '\x08'
  | 'f' => some '\x0c'
  | 'n' => some '\n'
  | 'r' => some '\r'
  | 't' => some '\t'
  | _ => none

/-- The characters up to the closing quote, as they are written, and what follows it. -/
def quoted? : List Char → Option (List Char × List Char)
  | [] => none
  | '"' :: rest => some ([], rest)
  | '\\' :: 'u' :: a :: b :: c :: d :: rest =>
    if (hexNumber? [a, b, c, d]).isSome then
      (quoted? rest).map fun (text, left) => ('\\' :: 'u' :: a :: b :: c :: d :: text, left)
    else none
  | '\\' :: e :: rest =>
    if (escape? e).isSome then (quoted? rest).map fun (text, left) => ('\\' :: e :: text, left)
    else none
  | c :: rest =>
    if c.toNat < 0x20 ∨ c = '\\' then none
    else (quoted? rest).map fun (text, left) => (c :: text, left)

def unescape? : List Char → Option (List Char)
  | [] => some []
  | '\\' :: 'u' :: a :: b :: c :: d :: rest => do
    let n ← hexNumber? [a, b, c, d]
    if isLowSurrogate n then none
    else if isHighSurrogate n then
      match rest with
      | '\\' :: 'u' :: e :: f :: g :: h :: rest => do
        let m ← hexNumber? [e, f, g, h]
        if isLowSurrogate m then
          (unescape? rest).map (Char.ofNat (0x10000 + (n - 0xD800) * 0x400 + (m - 0xDC00)) :: ·)
        else none
      | _ => none
    else (unescape? rest).map (Char.ofNat n :: ·)
  | '\\' :: e :: rest => (escape? e).bind fun c => (unescape? rest).map (c :: ·)
  | c :: rest => (unescape? rest).map (c :: ·)

/-- The rest of a string, absent if it cannot be decoded, and what follows it. -/
def string? (cs : List Char) : Option (Option String × List Char) :=
  (quoted? cs).map fun (text, left) => ((unescape? text).map String.ofList, left)

def digits? (cs : List Char) : Option (List Char × List Char) :=
  let ds := cs.takeWhile Char.isDigit
  if ds.isEmpty then none else some (ds, cs.dropWhile Char.isDigit)

def whole? (cs : List Char) : Option (List Char × List Char) := do
  let (ds, rest) ← digits? cs
  if ds.head? = some '0' ∧ ds.length ≠ 1 then none else some (ds, rest)

def fraction? : List Char → Option (List Char × List Char)
  | '.' :: rest => do
    let (ds, rest) ← digits? rest
    return ('.' :: ds, rest)
  | rest => some ([], rest)

def exponent? : List Char → Option (List Char × List Char)
  | c :: rest =>
    if c = 'e' ∨ c = 'E' then do
      let (sign, rest) := match rest with
        | '+' :: r => (['+'], r)
        | '-' :: r => (['-'], r)
        | r => ([], r)
      let (ds, rest) ← digits? rest
      return ('e' :: sign ++ ds, rest)
    else some ([], c :: rest)
  | [] => some ([], [])

def literal? (cs : List Char) : Option (List Char × List Char) := do
  let (sign, rest) := match cs with
    | '-' :: r => (['-'], r)
    | r => ([], r)
  let (ds, rest) ← whole? rest
  let (fraction, rest) ← fraction? rest
  let (exponent, rest) ← exponent? rest
  return (sign ++ ds ++ fraction ++ exponent, rest)

def after? : List Char → List Char → Option (List Char)
  | [], cs => some cs
  | w :: ws, c :: cs => if w = c then after? ws cs else none
  | _ :: _, [] => none

/-- The digits of a literal that fit 64 bits, and the power of ten that scales them. Digits
past that are dropped, those before the point each raising the power by one. -/
structure Scaled where
  significand : Nat
  exponent : Int

def Scaled.fits (s : Scaled) (d : Char) : Bool :=
  10 * s.significand + (d.toNat - '0'.toNat) < Nat.pow 2 64

def Scaled.push (s : Scaled) (d : Char) : Nat := 10 * s.significand + (d.toNat - '0'.toNat)

/-- Takes in the digits before the point. From the first that does not fit on, none does. -/
def Scaled.pushWhole : Scaled → List Char → Scaled
  | s, [] => s
  | s, d :: ds =>
    if s.fits d then Scaled.pushWhole ⟨s.push d, s.exponent⟩ ds
    else ⟨s.significand, s.exponent + ds.length + 1⟩

/-- Takes in the digits after the point, up to the first that does not fit. -/
def Scaled.pushFraction : Scaled → List Char → Scaled
  | s, [] => s
  | s, d :: ds =>
    if s.fits d then Scaled.pushFraction ⟨s.push d, s.exponent - 1⟩ ds else s

def powerOfTen (n : Nat) : Float := .ofScientific 1 false n

/-- Multiplies or divides by a power of ten, in steps a float can hold. A result beyond the
floats is none. -/
def scale? : Nat → Float → Int → Option Float
  | 0, f, _ => some f
  | steps + 1, f, e =>
    if e.natAbs ≤ 308 then
      if 0 ≤ e then
        let g := f * powerOfTen e.natAbs
        if g.isInf then none else some g
      else some (f / powerOfTen e.natAbs)
    else if f == 0 then some f
    else if 0 ≤ e then none
    else scale? steps (f / powerOfTen 308) (e + 308)

/-- The float of a literal: the significand is rounded once and the scaling once more, so
long fractions may miss the nearest float by one place. -/
def float? (cs : List Char) : Option Float :=
  let (negative, cs) := match cs with
    | '-' :: r => (true, r)
    | r => (false, r)
  let s := Scaled.pushWhole ⟨0, 0⟩ (cs.takeWhile Char.isDigit)
  let rest := cs.dropWhile Char.isDigit
  let (s, rest) := match rest with
    | '.' :: r => (s.pushFraction (r.takeWhile Char.isDigit), r.dropWhile Char.isDigit)
    | r => (s, r)
  let e := (Number.exponent? rest).getD 0
  (scale? 4 (.ofNat s.significand) (s.exponent + e)).map fun f => if negative then -f else f

/-- The data of an object, invalid if one of its keys is. -/
def ofMembers (members : List (Option String × Datum)) : Datum :=
  ((members.mapM fun m : Option String × Datum => m.1.map (·, m.2)).map Datum.table).getD .invalid

mutual

/-- A value at the start of a text, and what follows it. The first number bounds the calls
that nest, the second the brackets of valid data. -/
def value? : Nat → Nat → List Char → Option (Datum × List Char)
  | 0, _, _ => none
  | n + 1, depth, cs =>
    match skipSpace cs with
    | [] => none
    | '"' :: rest => (string? rest).map fun (s, left) => ((s.map Datum.string).getD .invalid, left)
    | 'n' :: rest => (after? "ull".toList rest).map fun left => (.null, left)
    | 't' :: rest => (after? "rue".toList rest).map fun left => (.bool true, left)
    | 'f' :: rest => (after? "alse".toList rest).map fun left => (.bool false, left)
    | '[' :: rest => do
      let (items, left) ← match skipSpace rest with
        | ']' :: left => some ([], left)
        | rest => items? n (depth - 1) rest
      return (if depth = 0 then .invalid else .array items, left)
    | '\x7b' :: rest => do
      let (members, left) ← match skipSpace rest with
        | '\x7d' :: left => some ([], left)
        | rest => members? n (depth - 1) rest
      return (if depth = 0 then .invalid else ofMembers members, left)
    | c :: rest => (literal? (c :: rest)).map fun (literal, left) =>
      (((float? literal).map Datum.number).getD .invalid, left)

def items? : Nat → Nat → List Char → Option (List Datum × List Char)
  | 0, _, _ => none
  | n + 1, depth, cs => do
    let (item, rest) ← value? n depth cs
    match skipSpace rest with
    | ',' :: rest => do
      let (items, left) ← items? n depth rest
      return (item :: items, left)
    | ']' :: left => return ([item], left)
    | _ => none

def members? : Nat → Nat → List Char → Option (List (Option String × Datum) × List Char)
  | 0, _, _ => none
  | n + 1, depth, cs =>
    match skipSpace cs with
    | '"' :: rest => do
      let (key, rest) ← string? rest
      match skipSpace rest with
      | ':' :: rest => do
        let (value, rest) ← value? n depth rest
        match skipSpace rest with
        | ',' :: rest => do
          let (members, left) ← members? n depth rest
          return ((key, value) :: members, left)
        | '\x7d' :: left => return ([(key, value)], left)
        | _ => none
      | _ => none
    | _ => none

end

def depthLimit : Nat := 127

def parse? (text : String) : Option Datum := do
  let cs := text.toList
  let (value, rest) ← value? (2 * cs.length + 2) depthLimit cs
  if (skipSpace rest).isEmpty then some value else none

end LiveSheet.Json
