import LiveSheet.Number.Layout

/-!
Tokens of the expression language. `let`, `const` and `var` are one word, `null` and
`undefined` another, and the strict comparisons are the loose ones.
-/

namespace LiveSheet

inductive Token where
  | trueWord
  | falseWord
  | nullWord
  | thisWord
  | awaitWord
  | letWord
  | leftParen
  | rightParen
  | leftBracket
  | rightBracket
  | comma
  | dot
  | semicolon
  | question
  | colon
  | assign
  | plus
  | minus
  | star
  | slash
  | percent
  | bang
  | andAnd
  | orOr
  | equal
  | notEqual
  | less
  | lessEqual
  | greater
  | greaterEqual
  | number (n : Float)
  | string (s : String)
  /-- The raw text between backticks, interpolations unread. -/
  | template (raw : String)
  | identifier (name : String)
  /-- A line end outside of brackets, which separates statements. -/
  | newline
  | eof
  deriving DecidableEq, Repr, Inhabited

/-- A place in a text, both counted from one. -/
structure Position where
  line : Nat
  column : Nat
  deriving DecidableEq, Repr

namespace Token

structure Placed where
  token : Token
  position : Position
  deriving DecidableEq, Repr

def text : Token → String
  | trueWord => "true"
  | falseWord => "false"
  | nullWord => "null"
  | thisWord => "this"
  | awaitWord => "await"
  | letWord => "let"
  | leftParen => "("
  | rightParen => ")"
  | leftBracket => "["
  | rightBracket => "]"
  | comma => ","
  | dot => "."
  | semicolon => ";"
  | question => "?"
  | colon => ":"
  | assign => "="
  | plus => "+"
  | minus => "-"
  | star => "*"
  | slash => "/"
  | percent => "%"
  | bang => "!"
  | andAnd => "&&"
  | orOr => "||"
  | equal => "=="
  | notEqual => "!="
  | less => "<"
  | lessEqual => "<="
  | greater => ">"
  | greaterEqual => ">="
  | number n => "number(" ++ Number.plain.write n ++ ")"
  | string s => "string(\"" ++ s ++ "\")"
  | template raw => "template(\x60" ++ raw ++ "\x60)"
  | identifier name => "identifier(" ++ name ++ ")"
  | newline => "newline"
  | eof => "EOF"

def ofWord (word : String) : Token :=
  if word = "true" then trueWord
  else if word = "false" then falseWord
  else if word = "null" ∨ word = "undefined" then nullWord
  else if word = "this" then thisWord
  else if word = "await" then awaitWord
  else if word = "let" ∨ word = "const" ∨ word = "var" then letWord
  else identifier word

end Token

end LiveSheet
