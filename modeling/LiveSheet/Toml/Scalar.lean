import LiveSheet.Json.Reader

/-!
Keys, strings, numbers and dates of TOML. Each reader gives what it read and the characters
it left.
-/

namespace LiveSheet.Toml

def isSpace (c : Char) : Bool := c == ' ' || c == '\t'

def skipSpace (cs : List Char) : List Char := cs.dropWhile isSpace

/-- Characters that comments and strings may hold: no control characters but the tab. -/
def isPlain (c : Char) : Bool := c == '\t' || (0x20 ≤ c.toNat && c.toNat != 0x7f)

def newline? : List Char → Option (List Char)
  | '\n' :: cs => some cs
  | '\r' :: '\n' :: cs => some cs
  | _ => none

def isBare (c : Char) : Bool := c.isAlphanum || c == '_' || c == '-'

def escape? (c : Char) : Option Char :=
  match c with
  | 'b' => some '\x08'
  | 't' => some '\t'
  | 'n' => some '\n'
  | 'f' => some '\x0c'
  | 'r' => some '\r'
  | '"' => some '"'
  | '\\' => some '\\'
  | _ => none

/-- The character of a code point, which is no surrogate. -/
def scalar? (digits : List Char) : Option Char :=
  (Json.hexNumber? digits).bind fun n => if n.isValidChar then some (Char.ofNat n) else none

def addChar (c : Char) (r : Option (List Char × List Char)) : Option (List Char × List Char) :=
  r.map fun (text, rest) => (c :: text, rest)

def basic? : List Char → Option (List Char × List Char)
  | [] => none
  | '"' :: rest => some ([], rest)
  | '\\' :: 'u' :: a :: b :: c :: d :: rest => (scalar? [a, b, c, d]).bind (addChar · (basic? rest))
  | '\\' :: 'U' :: a :: b :: c :: d :: e :: f :: g :: h :: rest =>
    (scalar? [a, b, c, d, e, f, g, h]).bind (addChar · (basic? rest))
  | '\\' :: e :: rest => (escape? e).bind (addChar · (basic? rest))
  | c :: rest => if isPlain c && c != '\\' then addChar c (basic? rest) else none

def literal? : List Char → Option (List Char × List Char)
  | [] => none
  | '\'' :: rest => some ([], rest)
  | c :: rest => if isPlain c then addChar c (literal? rest) else none

/-- The rest of a string in three double quotes. Up to two quotes may stand before the
closing ones. A backslash at a line end drops everything up to the next character that is
not blank, which is what `trimming` does. -/
def basicLines? (trimming : Bool) : List Char → Option (List Char × List Char)
  | [] => none
  | '"' :: '"' :: '"' :: '"' :: '"' :: rest => some (['"', '"'], rest)
  | '"' :: '"' :: '"' :: '"' :: rest => some (['"'], rest)
  | '"' :: '"' :: '"' :: rest => some ([], rest)
  | '\\' :: 'u' :: a :: b :: c :: d :: rest =>
    (scalar? [a, b, c, d]).bind (addChar · (basicLines? false rest))
  | '\\' :: 'U' :: a :: b :: c :: d :: e :: f :: g :: h :: rest =>
    (scalar? [a, b, c, d, e, f, g, h]).bind (addChar · (basicLines? false rest))
  | '\\' :: e :: rest =>
    match escape? e with
    | some c => addChar c (basicLines? false rest)
    | none => if (newline? (skipSpace (e :: rest))).isSome then basicLines? true (e :: rest) else none
  | '\r' :: '\n' :: rest => if trimming then basicLines? true rest else addChar '\n' (basicLines? false rest)
  | c :: rest =>
    if trimming && (isSpace c || c == '\n') then basicLines? true rest
    else if c == '\n' || (isPlain c && c != '\\') then addChar c (basicLines? false rest)
    else none

def literalLines? : List Char → Option (List Char × List Char)
  | [] => none
  | '\'' :: '\'' :: '\'' :: '\'' :: '\'' :: rest => some (['\'', '\''], rest)
  | '\'' :: '\'' :: '\'' :: '\'' :: rest => some (['\''], rest)
  | '\'' :: '\'' :: '\'' :: rest => some ([], rest)
  | '\r' :: '\n' :: rest => addChar '\n' (literalLines? rest)
  | c :: rest => if c == '\n' || isPlain c then addChar c (literalLines? rest) else none

def dropNewline (cs : List Char) : List Char := (newline? cs).getD cs

def string? : List Char → Option (String × List Char)
  | '"' :: '"' :: '"' :: rest => named (basicLines? false (dropNewline rest))
  | '"' :: rest => named (basic? rest)
  | '\'' :: '\'' :: '\'' :: rest => named (literalLines? (dropNewline rest))
  | '\'' :: rest => named (literal? rest)
  | _ => none
where
  named (r : Option (List Char × List Char)) : Option (String × List Char) :=
    r.map fun (text, rest) => (String.ofList text, rest)

def keyPart? (cs : List Char) : Option (String × List Char) :=
  match cs with
  | '"' :: rest => (basic? rest).map fun (text, rest) => (String.ofList text, rest)
  | '\'' :: rest => (literal? rest).map fun (text, rest) => (String.ofList text, rest)
  | cs =>
    let word := cs.takeWhile isBare
    if word.isEmpty then none else some (String.ofList word, cs.dropWhile isBare)

def digits? (isDigit : Char → Bool) : List Char → Option (List Char × List Char)
  | c :: cs => if isDigit c then addChar c (more? cs) else none
  | [] => none
where
  more? : List Char → Option (List Char × List Char)
    | '_' :: c :: cs => if isDigit c then addChar c (more? cs) else none
    | c :: cs => if isDigit c then addChar c (more? cs) else some ([], c :: cs)
    | [] => some ([], [])

/-- Whether a number has a minus sign, and what follows its sign. -/
def splitSign : List Char → Bool × List Char
  | '+' :: cs => (false, cs)
  | '-' :: cs => (true, cs)
  | cs => (false, cs)

def whole? : List Char → Option (List Char × List Char)
  | '0' :: cs => some (['0'], cs)
  | cs => digits? Char.isDigit cs

def signed (negative : Bool) (x : Float) : Float := if negative then -x else x

/-- A whole number of 64 bits. -/
def integer? (cs : List Char) : Option (Float × List Char) :=
  let radix := fun base isDigit cs => do
    let (ds, rest) ← digits? isDigit cs
    let n := ds.foldl (fun n c => base * n + (Json.hexValue? c).getD 0) 0
    if n < Nat.pow 2 63 then some (Float.ofNat n, rest) else none
  match cs with
  | '0' :: 'x' :: cs => radix 16 (fun c => (Json.hexValue? c).isSome) cs
  | '0' :: 'o' :: cs => radix 8 (fun c => '0' ≤ c && c ≤ '7') cs
  | '0' :: 'b' :: cs => radix 2 (fun c => c == '0' || c == '1') cs
  | cs => do
    let (negative, cs) := splitSign cs
    let (ds, rest) ← whole? cs
    let n := Number.digitsValue ds
    if n = 0 then some (0, rest)
    else if n < Nat.pow 2 63 ∨ (negative ∧ n = Nat.pow 2 63) then some (signed negative (Float.ofNat n), rest)
    else none

def exponent? : List Char → Option (Int × List Char)
  | c :: cs =>
    if c = 'e' ∨ c = 'E' then do
      let (negative, cs) := splitSign cs
      let (ds, rest) ← digits? Char.isDigit cs
      let n : Int := Number.digitsValue ds
      return (if negative then -n else n, rest)
    else none
  | [] => none

/-- A number with a fraction, an exponent or both. One that is too large is refused, but not
below zero. -/
def decimal? (cs : List Char) : Option (Float × List Char) := do
  let (negative, cs) := splitSign cs
  let (ds, rest) ← whole? cs
  let (fraction, exponent, rest) ← match rest with
    | '.' :: rest => do
      let (fs, rest) ← digits? Char.isDigit rest
      let (e, rest) := (exponent? rest).getD (0, rest)
      pure (fs, e, rest)
    | rest => do
      let (e, rest) ← exponent? rest
      pure ([], e, rest)
  let x := signed negative (Number.ofDecimal (Number.digitsValue (ds ++ fraction)) (exponent - fraction.length))
  if x == Number.infinity then none else return (x, rest)

def special? (cs : List Char) : Option (Float × List Char) :=
  let (negative, cs) := splitSign cs
  match cs with
  | 'i' :: 'n' :: 'f' :: rest => some (signed negative Number.infinity, rest)
  | 'n' :: 'a' :: 'n' :: rest => some (Number.nan, rest)
  | _ => none

/-- A number of exactly `n` digits between two bounds. -/
def field? (n low high : Nat) (cs : List Char) : Option (Nat × List Char) :=
  let ds := cs.take n
  let value := Number.digitsValue ds
  if ds.length = n ∧ ds.all Char.isDigit ∧ low ≤ value ∧ value ≤ high then some (value, cs.drop n)
  else none

def expect? (c : Char) : List Char → Option (List Char)
  | d :: cs => if c = d then some cs else none
  | [] => none

def daysInMonth (year month : Nat) : Nat :=
  if month = 2 then (if year % 4 = 0 ∧ (year % 100 ≠ 0 ∨ year % 400 = 0) then 29 else 28)
  else if month = 4 ∨ month = 6 ∨ month = 9 ∨ month = 11 then 30
  else 31

def date? (cs : List Char) : Option (List Char × List Char) := do
  let (year, rest) ← field? 4 0 9999 cs
  let rest ← expect? '-' rest
  let (month, rest) ← field? 2 1 12 rest
  let rest ← expect? '-' rest
  let (_, rest) ← field? 2 1 (daysInMonth year month) rest
  return (cs.take 10, rest)

/-- The text of a fraction of a second. Digits past the ninth are dropped, and then zeros at
the end. -/
def secondFraction (digits : List Char) : List Char :=
  let kept := ((digits.take 9).reverse.dropWhile (· == '0')).reverse
  if kept.isEmpty then [] else '.' :: kept

def time? (cs : List Char) : Option (List Char × List Char) := do
  let (_, rest) ← field? 2 0 23 cs
  let rest ← expect? ':' rest
  let (_, rest) ← field? 2 0 59 rest
  let rest ← expect? ':' rest
  let (_, rest) ← field? 2 0 60 rest
  let clock := cs.take 8
  match rest with
  | '.' :: rest =>
    if rest.head?.any Char.isDigit then
      return (clock ++ secondFraction (rest.takeWhile Char.isDigit), rest.dropWhile Char.isDigit)
    else none
  | rest => return (clock, rest)

/-- The text of the offset of a time, and what follows it. No offset is negative zero. -/
def offset? (cs : List Char) : Option (List Char × List Char) :=
  match cs with
  | [] => none
  | c :: cs =>
    if c = 'Z' ∨ c = 'z' then some (['Z'], cs)
    else if c = '+' ∨ c = '-' then do
      let (hours, rest) ← field? 2 0 23 cs
      let rest ← expect? ':' rest
      let (minutes, rest) ← field? 2 0 59 rest
      return ((if hours + minutes = 0 then '+' else c) :: cs.take 5, rest)
    else none

def dateTime? (cs : List Char) : Option (List Char × List Char) :=
  match date? cs with
  | none => time? cs
  | some (date, rest) =>
    match rest with
    | c :: cs =>
      if c = 'T' ∨ c = 't' ∨ c = ' ' then
        match time? cs with
        | some (time, rest) =>
          let (offset, rest) := (offset? rest).getD ([], rest)
          some (date ++ 'T' :: time ++ offset, rest)
        | none => some (date, rest)
      else some (date, rest)
    | [] => some (date, rest)

end LiveSheet.Toml
