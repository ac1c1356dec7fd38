import LiveSheet.Error
import LiveSheet.Text.Brace
import LiveSheet.Text.Span
import LiveSheet.Value.Text

/-!
Placeholders: a name in braces, maybe with an index, stands for the value of a variable.
They are replaced innermost first, so an index may itself hold placeholders. Braces around
anything else stay as they are.
-/

namespace LiveSheet.Placeholder

inductive Mode where
  /-- Labels: values are shown as text. -/
  | display
  /-- Expressions: values become source text, and braces in literals are left alone. -/
  | source
  deriving DecidableEq, Repr

/-- Whether quotes hide braces. -/
def Mode.after (mode : Mode) (c : Char) (quoting : Text.Quoting) : Text.Quoting :=
  match mode with
  | .display => .code
  | .source => quoting.after true c

def Mode.afterAll (mode : Mode) (cs : List Char) (quoting : Text.Quoting) : Text.Quoting :=
  cs.foldl (fun q c => mode.after c q) quoting

def Mode.render (mode : Mode) (v : Value) : String :=
  match mode with
  | .display => v.display
  | .source => v.source

structure Reference where
  name : String
  index : Option (List Char)
  deriving DecidableEq, Repr

def after? (word cs : List Char) : Option (List Char) :=
  if word.isPrefixOf cs then some (cs.drop word.length) else none

def skipThis (cs : List Char) : List Char :=
  match after? "this".toList cs with
  | none => cs
  | some rest =>
    match Text.trimStart rest with
    | '.' :: rest => Text.trimStart rest
    | _ => cs

/-- The index after a name: nothing, or a text in brackets. Nothing may follow. -/
def index? (cs : List Char) : Option (Option (List Char)) :=
  match Text.trimStart cs with
  | [] => some none
  | '[' :: rest =>
    match rest.dropWhile (· != ']') with
    | ']' :: after =>
      if after.all Text.isBlank then some (some (Text.trim (rest.takeWhile (· != ']')))) else none
    | _ => none
  | _ => none

def reference? (inner : List Char) : Option Reference :=
  let cs := skipThis (Text.trimStart inner)
  let name := cs.takeWhile Text.isVariablePart
  if Text.isVariableName name then
    (index? (cs.dropWhile Text.isVariablePart)).map fun index => ⟨String.ofList name, index⟩
  else none

def unquote (cs : List Char) : List Char :=
  let isQuote := fun c : Char => c == '"' || c == '\''
  ((cs.dropWhile isQuote).reverse.dropWhile isQuote).reverse

/-- The position an index text selects: a whole number, maybe in quotes. -/
def position? (index : List Char) : Option Nat := (Number.read? (unquote index)).bind Number.index?

/-- The value a reference stands for. What an index does not find is null. -/
def value (lookup : String → Option Value) (r : Reference) : Except SheetError Value :=
  match lookup r.name with
  | none => .error (.unknownVariable r.name)
  | some v =>
    match r.index with
    | none => .ok v
    | some index => .ok (((position? index).bind v.item?).getD .null)

def replacement (lookup : String → Option Value) (mode : Mode) (inner : List Char) :
    Except SheetError (List Char) :=
  match reference? inner with
  | none => .ok ('\x7b' :: inner ++ ['\x7d'])
  | some r => (value lookup r).map fun v => (mode.render v).toList

def expandFrom (lookup : String → Option Value) (mode : Mode) (quoting : Text.Quoting)
    (cs : List Char) : Except SheetError (List Char) :=
  match cs with
  | [] => .ok []
  | c :: cs =>
    if c = '\x7b' ∧ quoting = .code then
      match _h : Text.splitBrace 1 cs with
      | some (inner, rest) => do
        let inner' ← expandFrom lookup mode .code inner
        let shown ← replacement lookup mode inner'
        let rest' ← expandFrom lookup mode (mode.afterAll (inner ++ ['\x7d']) quoting) rest
        return shown ++ rest'
      | none => (expandFrom lookup mode quoting cs).map (c :: ·)
    else (expandFrom lookup mode (mode.after c quoting) cs).map (c :: ·)
termination_by cs.length
decreasing_by
  all_goals simp_wf
  · grind [Text.eq_of_splitBrace _h]
  · grind [Text.eq_of_splitBrace _h]

/-- Expands the placeholders of a text. A name that `lookup` does not know is an error. -/
def expand (lookup : String → Option Value) (mode : Mode) (text : String) : Except SheetError String :=
  (expandFrom lookup mode .code text.toList).map String.ofList

end LiveSheet.Placeholder
