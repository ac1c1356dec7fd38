import LiveSheet.Error
import LiveSheet.Text.Brace

/-!
Reading a text as tokens. Each reader takes the characters after the one it is chosen by and
gives the token, the characters it leaves and the place it stops at; `scan` chains them up
to the end of the text. A failure is placed where reading stopped.
-/

namespace LiveSheet

def Position.right (p : Position) (n : Nat) : Position := ⟨p.line, p.column + n⟩

/-- The place after `c`. Only the readers that meet a line end move to the next line. -/
def Position.after (p : Position) (c : Char) : Position := if c = '\n' then p else p.right 1

def Position.nextLine (p : Position) : Position := ⟨p.line + 1, 1⟩

namespace Token

structure Lexeme where
  token : Token
  rest : List Char
  position : Position

def fail {α : Type} (p : Position) (fault : SyntaxFault) : Except SheetError α := .error (.parse p fault)

def skip (inComment : Bool) : List Char → Position → List Char × Position
  | [], p => ([], p)
  | c :: rest, p =>
    if c = '\n' then (c :: rest, p)
    else if inComment then skip true rest (p.right 1)
    else if Text.isBlank c then skip false rest (p.right 1)
    else if c = '/' ∧ rest.head? = some '/' then skip true rest (p.right 1)
    else (c :: rest, p)

/-- The digits, point and exponent that continue a number, and the characters left. An
underscore is passed over; a point needs a digit after it. -/
def numberText (point exponent : Bool) : List Char → List Char × List Char
  | [] => ([], [])
  | c :: rest =>
    if c.isDigit then
      let (text, left) := numberText point exponent rest
      (c :: text, left)
    else if c = '_' then numberText point exponent rest
    else if c = '.' ∧ !point ∧ !exponent ∧ (rest.head?.any Char.isDigit) then
      let (text, left) := numberText true exponent rest
      (c :: text, left)
    else if (c = 'e' ∨ c = 'E') ∧ !exponent then
      match rest with
      | s :: rest' =>
        if s = '+' ∨ s = '-' then
          let (text, left) := numberText point true rest'
          ('e' :: s :: text, left)
        else
          let (text, left) := numberText point true (s :: rest')
          ('e' :: text, left)
      | [] => (['e'], [])
    else ([], c :: rest)

def readNumber (first : Char) (cs : List Char) (p : Position) : Except SheetError Lexeme :=
  let (text, left) := numberText (first == '.') false cs
  let q := p.right (1 + (cs.length - left.length))
  match Number.read? (first :: text) with
  | some n => .ok ⟨number n, left, q⟩
  | none => fail q (.invalidNumber (String.ofList (first :: text)))

def unescape (c : Char) : Char :=
  if c = 'n' then '\n' else if c = 't' then '\t' else if c = 'r' then '\r'
  else if c = '0' then '\x00' else c

structure Stretch where
  text : List Char
  rest : List Char
  position : Position

def put (text : List Char) (r : Except SheetError Stretch) : Except SheetError Stretch :=
  r.map fun x => { x with text := text ++ x.text }

/-- The text up to the closing quote. A string ends on its line, but an escaped line end
belongs to it. -/
def stringText (quote : Char) : List Char → Position → Except SheetError Stretch
  | [], p => fail p .unterminatedString
  | c :: rest, p =>
    if c = '\n' then fail p .unterminatedString
    else if c = quote then .ok ⟨[], rest, p.right 1⟩
    else if c = '\\' then
      match rest with
      | [] => fail (p.right 1) .unterminatedEscape
      | e :: rest' => put [unescape e] (stringText quote rest' ((p.right 1).after e))
    else put [c] (stringText quote rest (p.right 1))

/-- How an escaped character is kept in raw template text: a dollar, backtick or backslash
keeps a backslash in front. -/
def rawEscape (c : Char) : List Char :=
  let u := unescape c
  if u = '$' ∨ u = '\x60' ∨ u = '\\' then ['\\', u] else [u]

/-- The raw text up to the closing backtick, given the number of open braces. Escapes are
resolved outside of interpolations; an interpolation is kept as it stands, up to the brace
that balances its own. -/
def templateText (depth : Nat) : List Char → Position → Except SheetError Stretch
  | [], p => fail p .unterminatedTemplate
  | c :: rest, p =>
    let next := if c = '\n' then p.nextLine else p.right 1
    if depth ≠ 0 then put [c] (templateText (Text.depthAfter depth c) rest next)
    else if c = '\x60' then .ok ⟨[], rest, p.right 1⟩
    else if c = '\\' then
      match rest with
      | [] => fail (p.right 1) .unterminatedEscape
      | e :: rest' => put (rawEscape e) (templateText 0 rest' ((p.right 1).after e))
    else if c = '$' then
      match rest with
      | '\x7b' :: rest' => put [c, '\x7b'] (templateText 1 rest' (p.right 2))
      | left => put [c] (templateText 0 left (p.right 1))
    else put [c] (templateText 0 rest next)

def readString (quote : Char) (rest : List Char) (p : Position) : Except SheetError Lexeme :=
  (stringText quote rest (p.right 1)).map fun x => ⟨string (String.ofList x.text), x.rest, x.position⟩

def readTemplate (rest : List Char) (p : Position) : Except SheetError Lexeme :=
  (templateText 0 rest (p.right 1)).map fun x => ⟨template (String.ofList x.text), x.rest, x.position⟩

def single? (c : Char) : Option Token :=
  match c with
  | '(' => some leftParen
  | ')' => some rightParen
  | '[' => some leftBracket
  | ']' => some rightBracket
  | ',' => some comma
  | ';' => some semicolon
  | '?' => some question
  | ':' => some colon
  | '+' => some plus
  | '-' => some minus
  | '*' => some star
  | '/' => some slash
  | '%' => some percent
  | _ => none

/-- `=` and `!`, which up to two equality signs may follow. -/
def readComparison (alone compared : Token) (rest : List Char) (p : Position) : Lexeme :=
  match rest with
  | '=' :: '=' :: left => ⟨compared, left, p.right 3⟩
  | '=' :: left => ⟨compared, left, p.right 2⟩
  | left => ⟨alone, left, p.right 1⟩

/-- `<` and `>`, which an equality sign may follow. -/
def readOrder (strict weak : Token) (rest : List Char) (p : Position) : Lexeme :=
  match rest with
  | '=' :: left => ⟨weak, left, p.right 2⟩
  | left => ⟨strict, left, p.right 1⟩

/-- `&` and `|`, which stand only in pairs. -/
def readPair (c : Char) (both : Token) (rest : List Char) (p : Position) : Except SheetError Lexeme :=
  match rest with
  | d :: left => if d = c then .ok ⟨both, left, p.right 2⟩ else fail (p.right 1) (.halfOperator c)
  | [] => fail (p.right 1) (.halfOperator c)

/-- The token that starts with `c`, which is no blank and no line end. -/
def read (c : Char) (rest : List Char) (p : Position) : Except SheetError Lexeme :=
  match c with
  | '=' => .ok (readComparison assign equal rest p)
  | '!' => .ok (readComparison bang notEqual rest p)
  | '<' => .ok (readOrder less lessEqual rest p)
  | '>' => .ok (readOrder greater greaterEqual rest p)
  | '&' => readPair '&' andAnd rest p
  | '|' => readPair '|' orOr rest p
  | '.' => if rest.head?.any Char.isDigit then readNumber '.' rest p else .ok ⟨dot, rest, p.right 1⟩
  | '"' => readString '"' rest p
  | '\'' => readString '\'' rest p
  | '\x60' => readTemplate rest p
  | c =>
    if let some t := single? c then .ok ⟨t, rest, p.right 1⟩
    else if c.isDigit then readNumber c rest p
    else if Text.isNameStart c then
      let part := rest.takeWhile Text.isNamePart
      .ok ⟨ofWord (String.ofList (c :: part)), rest.dropWhile Text.isNamePart,
        p.right (1 + part.length)⟩
    else fail (p.right 1) (.strayCharacter c)

theorem length_skip_le (inComment : Bool) (cs : List Char) (p : Position) :
    (skip inComment cs p).1.length ≤ cs.length := by
  fun_induction skip inComment cs p <;> grind

theorem length_numberText_le (point exponent : Bool) (cs : List Char) :
    (numberText point exponent cs).2.length ≤ cs.length := by
  fun_induction numberText point exponent cs <;> grind

theorem exists_of_map {α β : Type} {f : α → β} {r : Except SheetError α} {y : β}
    (h : r.map f = .ok y) : ∃ x, r = .ok x ∧ f x = y := by
  cases r <;> simp_all [Except.map]

theorem rest_of_put {text : List Char} {r : Except SheetError Stretch} {x : Stretch}
    (h : put text r = .ok x) : ∃ y, r = .ok y ∧ y.rest = x.rest := by
  obtain ⟨y, hy, rfl⟩ := exists_of_map h
  exact ⟨y, hy, rfl⟩

theorem length_of_stringText {quote : Char} {cs : List Char} {p : Position} {x : Stretch}
    (h : stringText quote cs p = .ok x) : x.rest.length ≤ cs.length := by
  fun_induction stringText quote cs p generalizing x <;> grind [fail, rest_of_put]

theorem length_of_templateText {depth : Nat} {cs : List Char} {p : Position} {x : Stretch}
    (h : templateText depth cs p = .ok x) : x.rest.length ≤ cs.length := by
  fun_induction templateText depth cs p generalizing x <;> grind [fail, rest_of_put]

theorem length_of_readString {quote : Char} {rest : List Char} {p : Position} {x : Lexeme}
    (h : readString quote rest p = .ok x) : x.rest.length ≤ rest.length := by
  obtain ⟨y, hy, rfl⟩ := exists_of_map h
  exact length_of_stringText hy

theorem length_of_readTemplate {rest : List Char} {p : Position} {x : Lexeme}
    (h : readTemplate rest p = .ok x) : x.rest.length ≤ rest.length := by
  obtain ⟨y, hy, rfl⟩ := exists_of_map h
  exact length_of_templateText hy

theorem length_of_readNumber {c : Char} {rest : List Char} {p : Position} {x : Lexeme}
    (h : readNumber c rest p = .ok x) : x.rest.length ≤ rest.length := by
  have := length_numberText_le (c == '.') false rest
  grind [readNumber, fail]

theorem length_readComparison_le (alone compared : Token) (rest : List Char) (p : Position) :
    (readComparison alone compared rest p).rest.length ≤ rest.length := by
  unfold readComparison
  split <;> grind

theorem length_readOrder_le (strict weak : Token) (rest : List Char) (p : Position) :
    (readOrder strict weak rest p).rest.length ≤ rest.length := by
  unfold readOrder
  split <;> grind

theorem length_of_readPair {c : Char} {both : Token} {rest : List Char} {p : Position} {x : Lexeme}
    (h : readPair c both rest p = .ok x) : x.rest.length ≤ rest.length := by
  unfold readPair at h
  split at h <;> grind [fail]

theorem length_dropWhile_le (f : Char → Bool) (cs : List Char) : (cs.dropWhile f).length ≤ cs.length :=
  (List.dropWhile_suffix f).length_le

theorem length_of_read {c : Char} {rest : List Char} {p : Position} {x : Lexeme}
    (h : read c rest p = .ok x) : x.rest.length ≤ rest.length := by
  have := length_dropWhile_le Text.isNamePart rest
  unfold read at h
  split at h
  all_goals grind [length_readComparison_le, length_readOrder_le, → length_of_readPair,
    → length_of_readNumber, → length_of_readString, → length_of_readTemplate, fail]

/-- A line end separates statements unless brackets are open, nothing stands before it, or a
separator does. -/
def separates (nesting : Nat) (last : Option Token) : Bool :=
  nesting = 0 && match last with
    | none | some newline | some semicolon => false
    | _ => true

def nestingAfter (nesting : Nat) : Token → Nat
  | leftParen | leftBracket => nesting + 1
  | rightParen | rightBracket => nesting - 1
  | _ => nesting

def scan (nesting : Nat) (last : Option Token) (cs : List Char) (p : Position) :
    Except SheetError (List Placed) :=
  match _hs : skip false cs p with
  | ([], q) => .ok [⟨eof, q⟩]
  | (c :: rest, q) =>
    if c = '\n' then
      if separates nesting last then
        (scan nesting (some newline) rest q.nextLine).map (⟨newline, q⟩ :: ·)
      else scan nesting last rest q.nextLine
    else
      match _hr : read c rest q with
      | .error e => .error e
      | .ok x =>
        (scan (nestingAfter nesting x.token) (some x.token) x.rest x.position).map
          (⟨x.token, q⟩ :: ·)
termination_by cs.length
decreasing_by
  all_goals
    have := length_skip_le false cs p
    simp only [_hs, List.length_cons] at this
  · omega
  · omega
  · have := length_of_read _hr
    omega

/-- The tokens of a text. The last one, and only that, is the end. -/
def tokenize (cs : List Char) : Except SheetError (List Placed) := scan 0 none cs ⟨1, 1⟩

end Token

end LiveSheet
