import LiveSheet.Text.Span

/-!
What stands around a place in a text: the parenthesis that closes the one at hand, and the
dot or the word before it. Text before a place is given backwards, nearest character first.
-/

namespace LiveSheet.Text

/-- How far it is to the parenthesis that balances the ones opened from the start on, given
the number of open ones. Parentheses in literals do not count; none if the text closes more
than it opens, or never gets even. -/
def parenDistance (depth : Nat) : Quoting → List Char → Option Nat
  | _, [] => none
  | .code, c :: cs =>
    if c = '(' then (parenDistance (depth + 1) .code cs).map (· + 1)
    else if c = ')' then
      if depth = 0 then none
      else if depth = 1 then some 0
      else (parenDistance (depth - 1) .code cs).map (· + 1)
    else (parenDistance depth (Quoting.code.after true c) cs).map (· + 1)
  | q, c :: cs => (parenDistance depth (q.after true c) cs).map (· + 1)

/-- The position of the `)` that matches the `(` a text starts with. -/
def matchingParen (cs : List Char) : Option Nat := parenDistance 0 .code cs

theorem matchingParen_paren (cs : List Char) :
    matchingParen ('(' :: cs) = (parenDistance 1 .code cs).map (· + 1) := by
  rw [matchingParen, parenDistance, if_pos rfl]

/-- The byte offset of the `)` that matches the `(` at a byte offset of a text. -/
def matchingParenAt (text : String) (opening : Nat) : Option Nat :=
  let cs := text.toList
  let start := charOffset cs opening
  (matchingParen (cs.drop start)).map fun n => byteOffset cs (start + n)

/-- Whether the next name is a member: a dot stands before it. -/
def followsDot (before : List Char) : Bool := (before.dropWhile isBlank).head? == some '.'

def beforeWord? (word : String) (before : List Char) : Option (List Char) :=
  let backwards := word.toList.reverse
  let before := before.dropWhile isBlank
  if backwards.isPrefixOf before then
    let rest := before.drop backwards.length
    if rest.head?.any isNamePart then none else some rest
  else none

def followsWord (word : String) (before : List Char) : Bool := (beforeWord? word before).isSome

end LiveSheet.Text
