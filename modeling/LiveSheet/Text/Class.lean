import LiveSheet.Text.ClassTable

/-!
Character classes. ASCII is decided directly, everything else by the range tables, so the
common case never looks at a table.
-/

namespace LiveSheet.Text

def inRanges (ranges : List (Nat × Nat)) (c : Char) : Bool :=
  ranges.any fun (low, high) => low ≤ c.toNat && c.toNat ≤ high

/-- White space: what separates tokens and is trimmed from the ends of a text. -/
def isBlank (c : Char) : Bool :=
  if c.toNat < 0x80 then c == ' ' || ('\t' ≤ c && c ≤ '\x0d') else inRanges ClassTable.blanks c

def isLetter (c : Char) : Bool :=
  if c.toNat < 0x80 then c.isAlpha else inRanges ClassTable.letters c

def isNumeral (c : Char) : Bool :=
  if c.toNat < 0x80 then c.isDigit else inRanges ClassTable.numerals c

def isNameStart (c : Char) : Bool := isLetter c || c == '_' || c == '$'

def isNamePart (c : Char) : Bool := isLetter c || isNumeral c || c == '_' || c == '$'

/-- Word characters: a word boundary lies between one of these and anything else. Letters
that are new to the standard do not count. -/
def isWord (c : Char) : Bool :=
  if c.toNat < 0x80 then c.isAlphanum || c == '_'
  else inRanges ClassTable.letters c && !inRanges ClassTable.newLetters c
    || inRanges ClassTable.wordMarks c

def isVariableStart (c : Char) : Bool := c.isAlpha || c == '_'

def isVariablePart (c : Char) : Bool := c.isAlphanum || c == '_'

/-- Variable names are words of ASCII letters, digits and underscores that do not start
with a digit. -/
def isVariableName (name : List Char) : Bool :=
  match name with
  | [] => false
  | c :: rest => isVariableStart c && rest.all isVariablePart

def trimStart (cs : List Char) : List Char := cs.dropWhile isBlank

def trimEnd (cs : List Char) : List Char := (cs.reverse.dropWhile isBlank).reverse

def trim (cs : List Char) : List Char := trimEnd (trimStart cs)

end LiveSheet.Text
