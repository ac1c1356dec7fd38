import LiveSheet.Text.Class

/-!
Patterns for places in a text: characters, with any number of blanks in between. A pattern
ends in a character, so it matches no empty text, and it matches at a word boundary.
-/

namespace LiveSheet.Await

inductive Element where
  | char (c : Char)
  | blanks
  deriving DecidableEq, Repr

/-- What a pattern finds, the elements before its last character, and that character. -/
structure Pattern where
  name : String
  body : List Element
  last : Char
  deriving DecidableEq, Repr

/-- The text that elements match at the start of a text, and the text after it. Blanks match
as many characters as the elements behind them allow. -/
def matchElements : List Element → List Char → Option (List Char × List Char)
  | [], cs => some ([], cs)
  | .char _ :: _, [] => none
  | .char x :: es, c :: cs => if c = x then (matchElements es cs).map fun (m, r) => (c :: m, r) else none
  | .blanks :: es, [] => matchElements es []
  | .blanks :: es, c :: cs =>
    if Text.isBlank c then
      match matchElements (.blanks :: es) cs with
      | some (m, r) => some (c :: m, r)
      | none => matchElements es (c :: cs)
    else matchElements es (c :: cs)

theorem eq_of_matchElements {es : List Element} {cs m r : List Char}
    (h : matchElements es cs = some (m, r)) : cs = m ++ r := by
  fun_induction matchElements es cs generalizing m r <;> grind [Option.map_eq_some_iff]

theorem length_of_matchElements {es : List Element} {x : Char} {cs m r : List Char}
    (hx : .char x ∈ es) (h : matchElements es cs = some (m, r)) : 0 < m.length := by
  fun_induction matchElements es cs generalizing m r <;> grind [Option.map_eq_some_iff]

structure Match where
  name : String
  text : List Char
  rest : List Char

def Pattern.matchStart (p : Pattern) (cs : List Char) : Option Match :=
  (matchElements (p.body ++ [.char p.last]) cs).map fun (m, r) => ⟨p.name, m, r⟩

/-- Whether a word starts or ends between two texts. The first is given backwards. -/
def atBoundary (before after : List Char) : Bool :=
  before.head?.any Text.isWord != after.head?.any Text.isWord

def firstMatch (patterns : List Pattern) (before after : List Char) : Option Match :=
  if atBoundary before after then patterns.findSome? (·.matchStart after) else none

theorem eq_of_firstMatch {patterns : List Pattern} {before cs : List Char} {m : Match}
    (h : firstMatch patterns before cs = some m) : cs = m.text ++ m.rest ∧ 0 < m.text.length := by
  unfold firstMatch at h
  split at h
  · obtain ⟨p, _, hp⟩ := List.exists_of_findSome?_eq_some h
    obtain ⟨⟨t, r⟩, htr, rfl⟩ := Option.map_eq_some_iff.1 hp
    exact ⟨eq_of_matchElements htr, length_of_matchElements (List.mem_append_right _ (.head _)) htr⟩
  · simp at h

/-- A call: a name, with blanks around its dots, and an opening parenthesis. -/
def callPattern (name : String) : Pattern where
  name := name
  body := name.toList.flatMap (fun c => if c = '.' then [.blanks, .char '.', .blanks] else [.char c])
    ++ [.blanks]
  last := '('

def isMeta (c : Char) : Bool := "\\.+*?()|[]\x7b\x7d^$#&-~".toList.contains c

/-- The name of a call as it is written in a regular expression. -/
def escaped (name : String) : String :=
  String.ofList (name.toList.flatMap fun c =>
    if c = '.' then "\\s*\\.\\s*".toList else if isMeta c then ['\\', c] else [c])

/-- Whether one call is looked for before another one: the longer first, so that a name wins over
its own beginning. -/
def precedes (name other : String) : Bool :=
  let a := escaped name
  let b := escaped other
  b.utf8ByteSize < a.utf8ByteSize || b.utf8ByteSize == a.utf8ByteSize && a ≤ b

def ownerPattern (name : String) : Pattern where
  name := name
  body := name.toList.map .char ++ [.blanks]
  last := '.'

end LiveSheet.Await
