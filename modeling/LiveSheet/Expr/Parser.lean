import LiveSheet.Expr.Template

/-!
Reading tokens as expressions and scripts, by recursive descent. From loosest to tightest:
the conditional, six levels of binary operators, the operators in front of an operand, the
calls, members and indices behind it, and the primaries. Every function answers with what
it read and the tokens it left.

The descent is bounded by a number that shrinks with every call. Between two tokens at most
sixteen calls are made, so `depthFor` never runs out.
-/

namespace LiveSheet.Parser

abbrev Tokens := List Token.Placed

def fault {α : Type} (ts : Tokens) (f : Token → SyntaxFault) : Except SheetError α :=
  match ts with
  | [] => .error (.parse ⟨1, 1⟩ (f .eof))
  | t :: _ => .error (.parse t.position (f t.token))

def skipNewlines : Tokens → Tokens
  | ⟨.newline, _⟩ :: ts => skipNewlines ts
  | ts => ts

def expect (token : Token) (f : Token → SyntaxFault) (ts : Tokens) : Except SheetError Tokens :=
  match ts with
  | t :: rest => if t.token = token then .ok rest else fault ts f
  | [] => fault ts f

/-- A name that has to come after `before`. A missing one is reported at the token behind it,
and as the token before it when the text ends. -/
def nameAfter (before : Token) (f : Token → SyntaxFault) (ts : Tokens) : Except SheetError (String × Tokens) :=
  match ts with
  | ⟨.identifier name, _⟩ :: rest => .ok (name, rest)
  | ⟨.eof, _⟩ :: _ => fault ts fun _ => f before
  | t :: rest => fault rest fun _ => f t.token
  | [] => fault ts fun _ => f before

def operator? (level : Nat) (token : Token) : Option BinaryOp :=
  match level, token with
  | 0, .orOr => some .or
  | 1, .andAnd => some .and
  | 2, .equal => some .equal
  | 2, .notEqual => some .notEqual
  | 3, .less => some .less
  | 3, .lessEqual => some .lessEqual
  | 3, .greater => some .greater
  | 3, .greaterEqual => some .greaterEqual
  | 4, .plus => some .add
  | 4, .minus => some .subtract
  | 5, .star => some .multiply
  | 5, .slash => some .divide
  | 5, .percent => some .remainder
  | _, _ => none

def levels : Nat := 6

variable (template : String → Except SheetError (List (Part Expr)))

mutual

/-- A conditional. Line ends are allowed after its question mark and around its colon. -/
def ternary : Nat → Tokens → Except SheetError (Expr × Tokens)
  | 0, ts => fault ts .expectedExpression
  | n + 1, ts => do
    let (condition, ts) ← binary n 0 ts
    match ts with
    | ⟨.question, _⟩ :: ts => do
      let (ifTrue, ts) ← ternary n (skipNewlines ts)
      let ts ← expect .colon .expectedColon (skipNewlines ts)
      let (ifFalse, ts) ← ternary n (skipNewlines ts)
      return (.ternary condition ifTrue ifFalse, ts)
    | ts => return (condition, ts)

def binary : Nat → Nat → Tokens → Except SheetError (Expr × Tokens)
  | 0, _, ts => fault ts .expectedExpression
  | n + 1, level, ts =>
    if level < levels then do
      let (left, ts) ← binary n (level + 1) ts
      binaryRest n level left ts
    else unary n ts

/-- The operators of one level and their right operands. Line ends are allowed after an
operator. -/
def binaryRest : Nat → Nat → Expr → Tokens → Except SheetError (Expr × Tokens)
  | 0, _, _, ts => fault ts .expectedExpression
  | n + 1, level, left, ts =>
    match ts with
    | [] => .ok (left, ts)
    | t :: rest =>
      match operator? level t.token with
      | none => .ok (left, ts)
      | some op => do
        let (right, ts) ← binary n (level + 1) (skipNewlines rest)
        binaryRest n level (.binary op left right) ts

def unary : Nat → Tokens → Except SheetError (Expr × Tokens)
  | 0, ts => fault ts .expectedExpression
  | n + 1, ts =>
    match ts with
    | ⟨.awaitWord, _⟩ :: rest => (unary n rest).map fun (e, ts) => (.await e, ts)
    | ⟨.minus, _⟩ :: rest => (unary n rest).map fun (e, ts) => (.unary .negate e, ts)
    | ⟨.plus, _⟩ :: rest => (unary n rest).map fun (e, ts) => (.unary .plus e, ts)
    | ⟨.bang, _⟩ :: rest => (unary n rest).map fun (e, ts) => (.unary .not e, ts)
    | ts => do
      let (e, ts) ← primary n ts
      suffixes n e ts

def suffixes : Nat → Expr → Tokens → Except SheetError (Expr × Tokens)
  | 0, _, ts => fault ts .expectedExpression
  | n + 1, e, ts =>
    match ts with
    | ⟨.leftParen, _⟩ :: rest => do
      let (args, ts) ← arguments n .rightParen .unclosedArguments rest
      suffixes n (.call e args) ts
    | ⟨.dot, _⟩ :: rest => do
      let (property, ts) ← nameAfter .dot .expectedProperty rest
      suffixes n (.member e property) ts
    | ⟨.leftBracket, _⟩ :: rest => do
      let (index, ts) ← ternary n rest
      let ts ← expect .rightBracket .unclosedIndex ts
      suffixes n (.index e index) ts
    | ts => .ok (e, ts)

/-- Expressions between commas up to a closing token. One comma may stand before it. -/
def arguments : Nat → Token → (Token → SyntaxFault) → Tokens → Except SheetError (List Expr × Tokens)
  | 0, _, _, ts => fault ts .expectedExpression
  | n + 1, close, unclosed, ts =>
    match ts with
    | [] => fault ts .expectedExpression
    | t :: rest =>
      if t.token = close then .ok ([], rest)
      else do
        let (e, ts) ← ternary n ts
        match ts with
        | ⟨.comma, _⟩ :: ts =>
          let (es, ts) ← arguments n close unclosed ts
          return (e :: es, ts)
        | ts =>
          let ts ← expect close unclosed ts
          return ([e], ts)

def primary : Nat → Tokens → Except SheetError (Expr × Tokens)
  | 0, ts => fault ts .expectedExpression
  | n + 1, ts =>
    match ts with
    | ⟨.number x, _⟩ :: rest => .ok (.number x, rest)
    | ⟨.string s, _⟩ :: rest => .ok (.string s, rest)
    | ⟨.template raw, _⟩ :: rest => (template raw).map fun parts => (.template parts, rest)
    | ⟨.trueWord, _⟩ :: rest => .ok (.boolean true, rest)
    | ⟨.falseWord, _⟩ :: rest => .ok (.boolean false, rest)
    | ⟨.nullWord, _⟩ :: rest => .ok (.null, rest)
    | ⟨.thisWord, _⟩ :: rest => .ok (.self, rest)
    | ⟨.identifier name, _⟩ :: rest => .ok (.identifier name, rest)
    | ⟨.leftParen, _⟩ :: rest => do
      let (e, ts) ← ternary n rest
      let ts ← expect .rightParen .unclosedGroup ts
      return (e, ts)
    | ⟨.leftBracket, _⟩ :: rest =>
      (arguments n .rightBracket .unclosedItems rest).map fun (items, ts) => (.array items, ts)
    | ts => fault ts .expectedExpression

end

/-- A bound on the calls that reading `ts` can nest. -/
def depthFor (ts : Tokens) : Nat := 16 * (ts.length + 1)

def expression (ts : Tokens) : Except SheetError (Expr × Tokens) := ternary template (depthFor ts) ts

/-- Exactly one expression. Only line ends may follow it. -/
def only (ts : Tokens) : Except SheetError Expr := do
  let (e, ts) ← expression template ts
  match skipNewlines ts with
  | ⟨.eof, _⟩ :: _ => return e
  | ts => fault ts .trailing

def statement (ts : Tokens) : Except SheetError (Statement × Tokens) :=
  match ts with
  | ⟨.letWord, _⟩ :: rest => do
    let (name, ts) ← nameAfter .letWord .expectedLetName rest
    let ts ← expect .assign .expectedAssign ts
    let (value, ts) ← expression template ts
    return (.bind name value, ts)
  | ts => (expression template ts).map fun (e, ts) => (.expr e, ts)

/-- Statements up to the end, with line ends or semicolons between them. -/
def statements : Nat → Tokens → Except SheetError Program
  | 0, ts => fault ts .expectedExpression
  | n + 1, ts =>
    match ts with
    | [] | ⟨.eof, _⟩ :: _ => .ok []
    | ⟨.newline, _⟩ :: rest | ⟨.semicolon, _⟩ :: rest => statements n rest
    | ts => do
      let (s, ts) ← statement template ts
      match ts with
      | [] | ⟨.eof, _⟩ :: _ | ⟨.newline, _⟩ :: _ | ⟨.semicolon, _⟩ :: _ =>
        return s :: (← statements n ts)
      | ts => fault ts .expectedSeparator

def program (ts : Tokens) : Except SheetError Program := statements template (2 * ts.length + 1) ts

def expressionOf : Nat → List Char → Except SheetError Expr
  | 0, _ => .error (.parse ⟨1, 1⟩ (.expectedExpression .eof))
  | depth + 1, cs => do
    let ts ← Token.tokenize cs
    only (Template.parts (expressionOf depth)) ts

end LiveSheet.Parser

namespace LiveSheet

def Expr.parse (text : String) : Except SheetError Expr :=
  Parser.expressionOf (text.length + 1) text.toList

def Program.parse (text : String) : Except SheetError Program := do
  let ts ← Token.tokenize text.toList
  Parser.program (Template.parts (Parser.expressionOf (text.length + 1))) ts

end LiveSheet
