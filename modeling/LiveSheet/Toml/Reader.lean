import LiveSheet.Toml.Scalar
import LiveSheet.Toml.Table

/-!
Reading TOML documents. Brackets nest less than eighty deep, and keys have fewer than eighty
parts.
-/

namespace LiveSheet.Toml

def depthLimit : Nat := 80

def skipLines (inComment : Bool) : List Char → List Char
  | [] => []
  | '\n' :: cs => skipLines false cs
  | '\r' :: '\n' :: cs => skipLines false cs
  | c :: cs =>
    if inComment then (if isPlain c then skipLines true cs else c :: cs)
    else if isSpace c then skipLines false cs
    else if c = '#' then skipLines true cs
    else c :: cs

/-- The parts of a dotted key, given a bound on their number. Blanks may stand around dots. -/
def keyParts? : Nat → List Char → Option (List String × List Char)
  | 0, _ => none
  | n + 1, cs => do
    let (part, rest) ← keyPart? (skipSpace cs)
    match skipSpace rest with
    | '.' :: rest =>
      let (parts, rest) ← keyParts? n rest
      return (part :: parts, rest)
    | rest => return ([part], rest)

def key? (cs : List Char) : Option (List String × List Char) := keyParts? (depthLimit - 1) cs

mutual

/-- A value at the start of a text. The first number bounds the calls that nest, the second
the brackets. -/
def value? : Nat → Nat → List Char → Option (Datum × List Char)
  | 0, _, _ => none
  | n + 1, depth, cs =>
    match cs with
    | [] => none
    | '[' :: rest =>
      match depth with
      | 0 => none
      | depth + 1 => (items? n depth (skipLines false rest)).map fun (items, rest) => (.array items, rest)
    | '\x7b' :: rest =>
      match depth, skipSpace rest with
      | 0, _ => none
      | _ + 1, '\x7d' :: rest => some (.table [], rest)
      | depth + 1, rest =>
        (members? n depth [] rest).map fun (entries, rest) => (.table (entriesData entries), rest)
    | 't' :: 'r' :: 'u' :: 'e' :: rest => some (.bool true, rest)
    | 'f' :: 'a' :: 'l' :: 's' :: 'e' :: rest => some (.bool false, rest)
    | c :: rest =>
      if c = '"' ∨ c = '\'' then (string? (c :: rest)).map fun (s, rest) => (.string s, rest)
      else
        match dateTime? (c :: rest) with
        | some (text, rest) => some (.date (String.ofList text), rest)
        | none =>
          let number := (decimal? (c :: rest)).or ((special? (c :: rest)).or (integer? (c :: rest)))
          number.map fun (x, rest) => (.number x, rest)

/-- The items of an array up to its bracket. A comma may stand behind the last one. -/
def items? : Nat → Nat → List Char → Option (List Datum × List Char)
  | 0, _, _ => none
  | n + 1, depth, cs =>
    match cs with
    | ']' :: rest => some ([], rest)
    | cs => do
      let (item, rest) ← value? n depth cs
      match skipLines false rest with
      | ',' :: rest =>
        let (items, rest) ← items? n depth (skipLines false rest)
        return (item :: items, rest)
      | ']' :: rest => return ([item], rest)
      | _ => none

def members? : Nat → Nat → Entries → List Char → Option (Entries × List Char)
  | 0, _, _, _ => none
  | n + 1, depth, entries, cs => do
    let (path, rest) ← key? cs
    let rest ← expect? '=' rest
    let (value, rest) ← value? n depth (skipSpace rest)
    let entries ← entries.insert value path
    match skipSpace rest with
    | ',' :: rest => members? n depth entries rest
    | '\x7d' :: rest => return (entries, rest)
    | _ => none

end

def lineEnd? (cs : List Char) : Option (List Char) :=
  let rest := match skipSpace cs with
    | '#' :: cs => cs.dropWhile isPlain
    | cs => cs
  if rest.isEmpty then some [] else newline? rest

/-- A document under construction: its entries, and the header that lines belong to. -/
structure Draft where
  entries : Entries
  header : List String

def Draft.enter (d : Draft) (place : String → Entries → Option Entries) (path : List String) : Option Draft := do
  let key ← path.getLast?
  let entries ← Entries.withHeader (place key) path.dropLast d.entries
  return ⟨entries, path⟩

def line? (d : Draft) (cs : List Char) : Option (Draft × List Char) :=
  match cs with
  | '[' :: '[' :: cs => do
    let (path, rest) ← key? cs
    let rest ← expect? ']' rest
    let rest ← expect? ']' rest
    let d ← d.enter Entries.extend path
    return (d, ← lineEnd? rest)
  | '[' :: cs => do
    let (path, rest) ← key? cs
    let rest ← expect? ']' rest
    let d ← d.enter Entries.declare path
    return (d, ← lineEnd? rest)
  | cs => do
    let (path, rest) ← key? cs
    let rest ← expect? '=' rest
    let (value, rest) ← value? (2 * cs.length + 2) (depthLimit - 1) (skipSpace rest)
    let entries ← Entries.withHeader (Entries.insert value path) d.header d.entries
    return ({ d with entries }, ← lineEnd? rest)

/-- Takes in lines up to the end of the text. Every line takes at least one character. -/
def lines? : Nat → Draft → List Char → Option Draft
  | 0, _, _ => none
  | n + 1, d, cs =>
    match skipLines false cs with
    | [] => some d
    | cs => do
      let (d, rest) ← line? d cs
      lines? n d rest

def parse? (text : String) : Option Datum :=
  let cs := match text.toList with
    | '\ufeff' :: cs => cs
    | cs => cs
  (lines? (cs.length + 1) ⟨[], []⟩ cs).map fun d => .table (entriesData d.entries)

end LiveSheet.Toml
