import LiveSheet.Json
import LiveSheet.Text.Quoted

/-!
Writing JSON text: compact, or indented by two spaces with one item per line.
-/

namespace LiveSheet.Json

def enclose (opening closing : Char) (items : List (List Char)) : List Char :=
  opening :: [','].intercalate items ++ [closing]

mutual

def compactChars : Json → List Char
  | null => "null".toList
  | bool b => (if b then "true" else "false").toList
  | number literal => literal.toList
  | string s => Text.Quoted.quote s.toList
  | array items => enclose '[' ']' (compactItems items)
  | object members => enclose '\x7b' '\x7d' (compactMembers members)

def compactItems : List Json → List (List Char)
  | [] => []
  | item :: items => item.compactChars :: compactItems items

def compactMembers : List (String × Json) → List (List Char)
  | [] => []
  | (key, value) :: members =>
    (Text.Quoted.quote key.toList ++ ':' :: value.compactChars) :: compactMembers members

end

def compact (json : Json) : String := String.ofList json.compactChars

def lineAt (depth : Nat) : List Char := '\n' :: List.replicate (2 * depth) ' '

def encloseLines (opening closing : Char) (depth : Nat) (items : List (List Char)) : List Char :=
  if items.isEmpty then [opening, closing]
  else
    opening :: lineAt (depth + 1) ++ (',' :: lineAt (depth + 1)).intercalate items ++ lineAt depth
      ++ [closing]

mutual

def prettyChars (depth : Nat) : Json → List Char
  | array items => encloseLines '[' ']' depth (prettyItems (depth + 1) items)
  | object members => encloseLines '\x7b' '\x7d' depth (prettyMembers (depth + 1) members)
  | null => "null".toList
  | bool b => (if b then "true" else "false").toList
  | number literal => literal.toList
  | string s => Text.Quoted.quote s.toList

def prettyItems (depth : Nat) : List Json → List (List Char)
  | [] => []
  | item :: items => item.prettyChars depth :: prettyItems depth items

def prettyMembers (depth : Nat) : List (String × Json) → List (List Char)
  | [] => []
  | (key, value) :: members =>
    (Text.Quoted.quote key.toList ++ ':' :: ' ' :: value.prettyChars depth)
      :: prettyMembers depth members

end

def pretty (json : Json) : String := String.ofList (json.prettyChars 0)

end LiveSheet.Json
