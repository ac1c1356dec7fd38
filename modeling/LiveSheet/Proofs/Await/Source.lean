import LiveSheet.Await.Sequence
import LiveSheet.Proofs.Expr.Awaited

/-! Texts by their structure: words, marks and literals with blanks before them, templates with
the code inside of them, brackets, and calls of given names. Every text without comments that can
be read has this form. The text, its tokens and the text with its calls awaited are functions of
the form, and so the three can be compared piece by piece. -/

namespace LiveSheet.Await

/-- A character of a literal: as it stands, or behind a backslash. -/
inductive Glyph where
  | plain (c : Char)
  | escaped (c : Char)

namespace Glyph

def chars : Glyph → List Char
  | plain c => [c]
  | escaped c => ['\\', c]

def value : Glyph → Char
  | plain c => c
  | escaped c => Token.unescape c

/-- What the raw text of a template keeps. -/
def raw : Glyph → List Char
  | plain c => [c]
  | escaped c => Token.rawEscape c

/-- The glyph neither ends a string nor breaks it off. -/
def Inside (quote : Char) : Glyph → Prop
  | plain c => c ≠ quote ∧ c ≠ '\\' ∧ c ≠ '\n'
  | escaped _ => True

/-- No glyph ends the text of a template or opens code. A dollar before an escaped brace would do so
in the raw text. -/
def Literal : List Glyph → Prop
  | [] => True
  | plain c :: gs => c ≠ '\x60' ∧ c ≠ '\\' ∧
    (c = '$' → gs.head? ≠ some (plain '\x7b') ∧ gs.head? ≠ some (escaped '\x7b')) ∧ Literal gs
  | escaped _ :: gs => Literal gs

end Glyph

def spell (gs : List Glyph) : List Char := gs.flatMap Glyph.chars

def Blank (gap : List Char) : Prop := ∀ c ∈ gap, Text.isBlank c = true

inductive Mark where
  | assign
  | equal
  | strictEqual
  | bang
  | notEqual
  | strictNotEqual
  | less
  | lessEqual
  | greater
  | greaterEqual
  | andAnd
  | orOr
  | dot
  | comma
  | semicolon
  | question
  | colon
  | plus
  | minus
  | star
  | slash
  | percent

namespace Mark

def chars : Mark → List Char
  | assign => ['=']
  | equal => ['=', '=']
  | strictEqual => ['=', '=', '=']
  | bang => ['!']
  | notEqual => ['!', '=']
  | strictNotEqual => ['!', '=', '=']
  | less => ['<']
  | lessEqual => ['<', '=']
  | greater => ['>']
  | greaterEqual => ['>', '=']
  | andAnd => ['&', '&']
  | orOr => ['|', '|']
  | dot => ['.']
  | comma => [',']
  | semicolon => [';']
  | question => ['?']
  | colon => [':']
  | plus => ['+']
  | minus => ['-']
  | star => ['*']
  | slash => ['/']
  | percent => ['%']

def token : Mark → Token
  | assign => .assign
  | equal | strictEqual => .equal
  | bang => .bang
  | notEqual | strictNotEqual => .notEqual
  | less => .less
  | lessEqual => .lessEqual
  | greater => .greater
  | greaterEqual => .greaterEqual
  | andAnd => .andAnd
  | orOr => .orOr
  | dot => .dot
  | comma => .comma
  | semicolon => .semicolon
  | question => .question
  | colon => .colon
  | plus => .plus
  | minus => .minus
  | star => .star
  | slash => .slash
  | percent => .percent

/-- The mark and the text behind it make another token, or a comment. -/
def joins (m : Mark) (next : List Char) : Bool :=
  match m with
  | assign | equal | bang | notEqual | less | greater => next.head? == some '='
  | slash => next.head? == some '/'
  | dot => next.head?.any Char.isDigit
  | _ => false

end Mark

/-- A point and a digit, which would continue a number. -/
def startsPoint : List Char → Bool
  | '.' :: c :: _ => c.isDigit
  | _ => false

/-- A piece of text that is one token, but for templates and brackets. -/
inductive Atom where
  | word (text : List Char)
  | mark (m : Mark)
  | number (first : Char) (text digits : List Char) (value : Float)
  | quoted (quote : Char) (body : List Glyph)

namespace Atom

def chars : Atom → List Char
  | word text => text
  | mark m => m.chars
  | number first text _ _ => first :: text
  | quoted quote body => quote :: (spell body ++ [quote])

def token : Atom → Token
  | word text => .ofWord (String.ofList text)
  | mark m => m.token
  | number _ _ _ value => .number value
  | quoted _ body => .string (String.ofList (body.map Glyph.value))

/-- The text of the atom is read as its token where `next` stands behind it. -/
def Fits (next : List Char) : Atom → Prop
  | word text => (∃ c rest, text = c :: rest ∧ Text.isNameStart c = true) ∧
    (∀ c ∈ text, Text.isNamePart c = true) ∧ next.head?.any Text.isNamePart = false
  | mark m => m.joins next = false
  | number first text digits value =>
    (first.isDigit = true ∨ first = '.' ∧ text.head?.any Char.isDigit = true) ∧
    Token.numberText (first == '.') false text = (digits, []) ∧ Number.read? (first :: digits) = some value ∧
    (first :: text).getLast?.any (fun c => c.isDigit || c == '_') = true ∧
    next.head?.any Text.isNamePart = false ∧ startsPoint next = false
  | quoted quote body => (quote = '"' ∨ quote = '\'') ∧ ∀ g ∈ body, g.Inside quote

end Atom

/-- The callee of a call of one of the names, with the blanks around its dot and behind it. -/
inductive Target where
  | name (text gap : List Char)
  | path (owner gap₁ gap₂ text gap₃ : List Char)

/-- A word that is an identifier of ASCII letters, digits and underscores. -/
def Identifier (text : List Char) : Prop :=
  Text.isVariableName text = true ∧ Token.ofWord (String.ofList text) = .identifier (String.ofList text)

namespace Target

def chars : Target → List Char
  | name text gap => text ++ gap
  | path owner gap₁ gap₂ text gap₃ => owner ++ (gap₁ ++ '.' :: (gap₂ ++ (text ++ gap₃)))

def callName : Target → String
  | name text _ => String.ofList text
  | path owner _ _ text _ => String.ofList owner ++ "." ++ String.ofList text

def tokens : Target → List Token
  | name text _ => [.identifier (String.ofList text)]
  | path owner _ _ text _ => [.identifier (String.ofList owner), .dot, .identifier (String.ofList text)]

def Fits (names : List String) (t : Target) : Prop :=
  t.callName ∈ names ∧ match t with
    | name text gap => Identifier text ∧ Blank gap
    | path owner gap₁ gap₂ text gap₃ => Identifier owner ∧ Identifier text ∧ Blank gap₁ ∧ Blank gap₂ ∧ Blank gap₃

end Target

inductive Bracket where
  | round
  | square

namespace Bracket

def opening : Bracket → Char
  | round => '('
  | square => '['

def closing : Bracket → Char
  | round => ')'
  | square => ']'

def openingToken : Bracket → Token
  | round => .leftParen
  | square => .leftBracket

def closingToken : Bracket → Token
  | round => .rightParen
  | square => .rightBracket

end Bracket

mutual

/-- A text from some place on to the end of the text or of the brackets around it. Each piece has
the blanks before it. -/
inductive Source where
  | done (gap : List Char)
  | leaf (gap : List Char) (atom : Atom) (rest : Source)
  | template (gap : List Char) (body : Segments) (rest : Source)
  | group (gap : List Char) (bracket : Bracket) (inner rest : Source)
  | call (gap : List Char) (target : Target) (args rest : Source)

/-- The text and the code of a template. -/
inductive Segments where
  | last (text : List Glyph)
  | code (text : List Glyph) (inner : Source) (rest : Segments)

end

mutual

def Source.chars : Source → List Char
  | .done gap => gap
  | .leaf gap atom rest => gap ++ (atom.chars ++ rest.chars)
  | .template gap body rest => gap ++ '\x60' :: (body.chars ++ '\x60' :: rest.chars)
  | .group gap bracket inner rest => gap ++ bracket.opening :: (inner.chars ++ bracket.closing :: rest.chars)
  | .call gap target args rest => gap ++ (target.chars ++ '(' :: (args.chars ++ ')' :: rest.chars))

def Segments.chars : Segments → List Char
  | .last text => spell text
  | .code text inner rest => spell text ++ '$' :: '\x7b' :: (inner.chars ++ '\x7d' :: rest.chars)

end

def Segments.raw : Segments → List Char
  | .last text => text.flatMap Glyph.raw
  | .code text inner rest => text.flatMap Glyph.raw ++ '$' :: '\x7b' :: (inner.chars ++ '\x7d' :: rest.raw)

/-- The line end that blanks separate statements with, if they do. -/
def gapTokens (nesting : Nat) (fresh : Bool) (gap : List Char) : List Token :=
  if nesting = 0 ∧ fresh = false ∧ '\n' ∈ gap then [.newline] else []

def Source.tokens (nesting : Nat) (fresh : Bool) : Source → List Token
  | .done gap => gapTokens nesting fresh gap
  | .leaf gap atom rest =>
    gapTokens nesting fresh gap ++ atom.token :: rest.tokens nesting (decide (atom.token = .semicolon))
  | .template gap body rest =>
    gapTokens nesting fresh gap ++ .template (String.ofList body.raw) :: rest.tokens nesting false
  | .group gap bracket inner rest => gapTokens nesting fresh gap ++ bracket.openingToken ::
    (inner.tokens (nesting + 1) false ++ bracket.closingToken :: rest.tokens nesting false)
  | .call gap target args rest => gapTokens nesting fresh gap ++ (target.tokens ++ .leftParen ::
    (args.tokens (nesting + 1) false ++ .rightParen :: rest.tokens nesting false))

mutual

def Source.awaited (await : Bool) : Source → Source
  | .done gap => .done gap
  | .leaf gap atom rest => .leaf gap atom (rest.awaited (decide (atom.token = .awaitWord)))
  | .template gap body rest => .template gap body.awaited (rest.awaited false)
  | .group gap bracket inner rest => .group gap bracket (inner.awaited false) (rest.awaited false)
  | .call gap target args rest =>
    if await then .call gap target (args.awaited false) (rest.awaited false)
    else .group gap .round (.leaf [] (.word "await".toList)
      (.call [' '] target (args.awaited false) (.done []))) (rest.awaited false)

def Segments.awaited : Segments → Segments
  | .last text => .last text
  | .code text inner rest => .code text (inner.awaited false) rest.awaited

end

/-- How many braces are open behind some text, if the one that was first never closes. -/
def openBraces : Nat → List Char → Option Nat
  | depth, [] => some depth
  | depth, c :: cs => if Text.depthAfter depth c = 0 then none else openBraces (Text.depthAfter depth c) cs

mutual

/-- The text is read as its tokens where `next` stands behind it. -/
def Source.Spells (names : List String) (nesting : Nat) (next : List Char) : Source → Prop
  | .done gap => Blank gap
  | .leaf gap atom rest => Blank gap ∧ atom.Fits (rest.chars ++ next) ∧ rest.Spells names nesting next
  | .template gap body rest => Blank gap ∧ body.Spells names ∧ rest.Spells names nesting next
  | .group gap bracket inner rest => Blank gap ∧
    inner.Spells names (nesting + 1) (bracket.closing :: (rest.chars ++ next)) ∧
    rest.Spells names nesting next
  | .call gap target args rest => Blank gap ∧ target.Fits names ∧ (nesting = 0 → '\n' ∉ target.chars) ∧
    args.Spells names (nesting + 1) (')' :: (rest.chars ++ next)) ∧ rest.Spells names nesting next

def Segments.Spells (names : List String) : Segments → Prop
  | .last text => Glyph.Literal text
  | .code text inner rest => Glyph.Literal text ∧ inner.Spells names 0 [] ∧
    openBraces 1 inner.chars = some 1 ∧ rest.Spells names

end

end LiveSheet.Await
