import LiveSheet.Expr
import LiveSheet.Token.Lexer

/-!
Raw template text as text and code. The text of an interpolation runs to the brace that
balances its own, and a backslash makes the next character plain text.
-/

namespace LiveSheet.Template

/-- A stretch of raw template text: literal characters, or the code of an interpolation. An
interpolation without end is the failure to read it. -/
inductive Piece where
  | text (cs : List Char)
  | code (body : Except SheetError (List Char))

def addText (c : Char) : List Piece → List Piece
  | .text cs :: rest => .text (c :: cs) :: rest
  | pieces => .text [c] :: pieces

def addCode (c : Char) : List Piece → List Piece
  | .code body :: rest => .code (body.map (c :: ·)) :: rest
  | pieces => pieces

/-- The pieces of raw text, given the number of open braces, the column of the first
character and the column where the open interpolation started. -/
def pieces (depth column start : Nat) : List Char → List Piece
  | [] => if depth = 0 then [] else [.code (.error (.parse ⟨1, start⟩ .unterminatedInterpolation))]
  | c :: rest =>
    if depth ≠ 0 then
      let depth' := Text.depthAfter depth c
      if depth' = 0 then .code (.ok []) :: pieces 0 (column + 1) 0 rest
      else addCode c (pieces depth' (column + 1) start rest)
    else if c = '\\' then
      match rest with
      | e :: rest' => addText e (pieces 0 (column + 2) 0 rest')
      | [] => [.text [c]]
    else if c = '$' then
      match rest with
      | '\x7b' :: rest' => pieces 1 (column + 2) column rest'
      | left => addText c (pieces 0 (column + 1) 0 left)
    else addText c (pieces 0 (column + 1) 0 rest)

def parts (parse : List Char → Except SheetError Expr) (raw : String) :
    Except SheetError (List (Part Expr)) :=
  (pieces 0 1 0 raw.toList).mapM fun
    | .text cs => .ok (.text (String.ofList cs))
    | .code body => body.bind fun cs => (parse cs).map .code

end LiveSheet.Template
