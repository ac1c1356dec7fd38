import LiveSheet.Names
import LiveSheet.Text.Surroundings

/-!
The names an expression reads, found without parsing it, so that a text with errors has
references too. A name counts if it stands alone, behind `this.`, or as a quoted key behind
`this`; other members and the text of literals do not count.
-/

namespace LiveSheet

/-- A word of a text: its position, the text before it backwards, and the text after it. -/
structure Text.Word where
  start : Nat
  before : List Char
  name : List Char
  after : List Char

def Text.wordsFrom (i : Nat) (before cs : List Char) : List Text.Word :=
  match cs with
  | [] => []
  | c :: rest =>
    if Text.isWord c then
      let word := c :: rest.takeWhile Text.isWord
      let after := rest.dropWhile Text.isWord
      let others := wordsFrom (i + word.length) (word.reverse ++ before) after
      if Text.isVariableName word then ⟨i, before, word, after⟩ :: others else others
    else wordsFrom (i + 1) (c :: before) rest
termination_by cs.length
decreasing_by
  · have := (List.dropWhile_suffix (l := rest) Text.isWord).length_le
    grind
  · simp

structure References where
  reads : NameSet
  namespaces : NameSet

namespace References

def isQuote (c : Char) : Bool := c == '"' || c == '\''

def key? (cs : List Char) : Option (List Char) :=
  match Text.trimStart cs with
  | '[' :: cs =>
    match Text.trimStart cs with
    | q :: cs =>
      let name := cs.takeWhile Text.isVariablePart
      match cs.dropWhile Text.isVariablePart with
      | q' :: cs =>
        if isQuote q && isQuote q' && Text.isVariableName name && (Text.trimStart cs).head? == some ']'
        then some name else none
      | [] => none
    | [] => none
  | _ => none

def followsThis (before : List Char) : Bool :=
  Text.followsDot before && Text.followsWord "this" ((before.dropWhile Text.isBlank).drop 1)

/-- The variables a word reads: itself, unless it is some other member, and the key behind
`this`. -/
def variablesOf (declared : NameSet) (w : Text.Word) : List String :=
  let name := String.ofList w.name
  let bare := if Text.followsDot w.before && !followsThis w.before then [] else [name]
  let keyed := if name = "this" then ((key? w.after).map String.ofList).toList else []
  (bare ++ keyed).filter declared.contains

/-- The integration a word names: one with a dot behind it, unless it is a member or a
variable. -/
def namespaceOf? (declared namespaces : NameSet) (w : Text.Word) : Option String :=
  let name := String.ofList w.name
  if !Text.followsDot w.before && !declared.contains name && namespaces.contains name
    && (Text.trimStart w.after).head? == some '.'
  then some name else none

def codeWords (text : String) : List Text.Word :=
  let cs := text.toList
  let spans := Text.nonCodeSpans cs
  (Text.wordsFrom 0 [] cs).filter fun w => !Text.inSpans spans w.start

def scan (text : String) (declared namespaces : NameSet) : References where
  reads := NameSet.ofNames ((codeWords text).flatMap (variablesOf declared))
  namespaces := NameSet.ofNames ((codeWords text).filterMap (namespaceOf? declared namespaces))

end References

end LiveSheet
