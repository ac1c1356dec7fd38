import LiveSheet.Text.Class

/-!
Where a text is code and where it is not. Quotes are taken as they stand in the text, from
left to right; nothing is parsed. Two views are offered: the quoted literals, in which a
template is one literal, and the parts that are no code, which leave the code inside of
template interpolations out. Both are lists of spans in the order of the text.
-/

namespace LiveSheet.Text

/-- The characters from `start` up to, not including, `stop`. -/
structure Span where
  start : Nat
  stop : Nat
  deriving DecidableEq, Repr

def inSpans (spans : List Span) (position : Nat) : Bool :=
  spans.any fun s => s.start ≤ position && position < s.stop

/-- Whether a scan stands in code or in a literal, and there whether a backslash came just
before. -/
inductive Quoting where
  | code
  | literal (quote : Char) (escaped : Bool)
  deriving DecidableEq, Repr

/-- Quotes open a literal. A backtick does so if `templates` is set. -/
def opens (templates : Bool) (c : Char) : Bool := c == '"' || c == '\'' || (templates && c == '\x60')

def Quoting.after (templates : Bool) (c : Char) : Quoting → Quoting
  | code => if opens templates c then literal c false else code
  | literal quote true => literal quote false
  | literal quote false =>
    if c = '\\' then literal quote true else if c = quote then code else literal quote false

/-- The literals of a text from position `i` on, of which the open one began at `start`. One
without end runs to the end of the text. -/
def literalSpansFrom (templates : Bool) (i start : Nat) : Quoting → List Char → List Span
  | .code, [] => []
  | .literal .., [] => [⟨start, i⟩]
  | .code, c :: cs => literalSpansFrom templates (i + 1) i (Quoting.code.after templates c) cs
  | .literal quote escaped, c :: cs =>
    match (Quoting.literal quote escaped).after templates c with
    | .code => ⟨start, i + 1⟩ :: literalSpansFrom templates (i + 1) 0 .code cs
    | open' => literalSpansFrom templates (i + 1) start open' cs

def literalSpans (templates : Bool) (cs : List Char) : List Span :=
  literalSpansFrom templates 0 0 .code cs

/-- Where a scan stands that tells template text from the code inside a template. -/
inductive Region where
  | code
  | quoted (start : Nat) (quote : Char) (escaped : Bool)
  | template (start : Nat) (escaped : Bool)
  deriving DecidableEq, Repr

/-- The parts of a text from position `i` on that are no code. `braces` counts, for each open
interpolation, the braces that are open in it, innermost first. -/
def nonCodeSpansFrom (i : Nat) : Region → List Nat → List Char → List Span
  | .code, _, [] => []
  | .quoted start .., _, [] => [⟨start, i⟩]
  | .template start _, _, [] => [⟨start, i⟩]
  | .quoted start quote escaped, braces, c :: cs =>
    if escaped then nonCodeSpansFrom (i + 1) (.quoted start quote false) braces cs
    else if c = '\\' then nonCodeSpansFrom (i + 1) (.quoted start quote true) braces cs
    else if c = quote then ⟨start, i + 1⟩ :: nonCodeSpansFrom (i + 1) .code braces cs
    else nonCodeSpansFrom (i + 1) (.quoted start quote false) braces cs
  | .template start escaped, braces, c :: cs =>
    if escaped then nonCodeSpansFrom (i + 1) (.template start false) braces cs
    else if c = '\\' then nonCodeSpansFrom (i + 1) (.template start true) braces cs
    else if c = '\x60' then ⟨start, i + 1⟩ :: nonCodeSpansFrom (i + 1) .code braces cs
    else if c = '$' then
      match cs with
      | '\x7b' :: cs' => ⟨start, i + 2⟩ :: nonCodeSpansFrom (i + 2) .code (0 :: braces) cs'
      | cs => nonCodeSpansFrom (i + 1) (.template start false) braces cs
    else nonCodeSpansFrom (i + 1) (.template start false) braces cs
  | .code, braces, c :: cs =>
    if c = '"' ∨ c = '\'' then nonCodeSpansFrom (i + 1) (.quoted i c false) braces cs
    else if c = '\x60' then nonCodeSpansFrom (i + 1) (.template i false) braces cs
    else match braces with
      | [] => nonCodeSpansFrom (i + 1) .code [] cs
      | depth :: outer =>
        if c = '\x7b' then nonCodeSpansFrom (i + 1) .code ((depth + 1) :: outer) cs
        else if c = '\x7d' then
          if depth = 0 then nonCodeSpansFrom (i + 1) (.template i false) outer cs
          else nonCodeSpansFrom (i + 1) .code ((depth - 1) :: outer) cs
        else nonCodeSpansFrom (i + 1) .code (depth :: outer) cs

section

variable {i start depth : Nat} {quote c : Char} {braces : List Nat} {cs : List Char}

attribute [local simp] nonCodeSpansFrom

theorem nonCodeSpansFrom_quoted_escaped : nonCodeSpansFrom i (.quoted start quote true) braces (c :: cs) =
    nonCodeSpansFrom (i + 1) (.quoted start quote false) braces cs := by
  simp

theorem nonCodeSpansFrom_quoted_backslash : nonCodeSpansFrom i (.quoted start quote false) braces ('\\' :: cs) =
    nonCodeSpansFrom (i + 1) (.quoted start quote true) braces cs := by
  simp

theorem nonCodeSpansFrom_quoted_close (h : quote ≠ '\\') : nonCodeSpansFrom i (.quoted start quote false) braces (quote :: cs) =
    ⟨start, i + 1⟩ :: nonCodeSpansFrom (i + 1) .code braces cs := by
  simp [h]

theorem nonCodeSpansFrom_template_escaped : nonCodeSpansFrom i (.template start true) braces (c :: cs) =
    nonCodeSpansFrom (i + 1) (.template start false) braces cs := by
  rw [nonCodeSpansFrom.eq_def]
  simp

theorem nonCodeSpansFrom_template_backslash : nonCodeSpansFrom i (.template start false) braces ('\\' :: cs) =
    nonCodeSpansFrom (i + 1) (.template start true) braces cs := by
  rw [nonCodeSpansFrom.eq_def]
  simp

theorem nonCodeSpansFrom_template_close : nonCodeSpansFrom i (.template start false) braces ('\x60' :: cs) =
    ⟨start, i + 1⟩ :: nonCodeSpansFrom (i + 1) .code braces cs := by
  rw [nonCodeSpansFrom.eq_def]
  simp

theorem nonCodeSpansFrom_template_code : nonCodeSpansFrom i (.template start false) braces ('$' :: '\x7b' :: cs) =
    ⟨start, i + 2⟩ :: nonCodeSpansFrom (i + 2) .code (0 :: braces) cs := by
  simp

theorem nonCodeSpansFrom_code_quote (h : c = '"' ∨ c = '\'') : nonCodeSpansFrom i .code braces (c :: cs) =
    nonCodeSpansFrom (i + 1) (.quoted i c false) braces cs := by
  simp [h]

theorem nonCodeSpansFrom_code_brace : nonCodeSpansFrom i .code (depth :: braces) ('\x7b' :: cs) =
    nonCodeSpansFrom (i + 1) .code ((depth + 1) :: braces) cs := by
  simp

theorem nonCodeSpansFrom_code_close (h : depth ≠ 0) : nonCodeSpansFrom i .code (depth :: braces) ('\x7d' :: cs) =
    nonCodeSpansFrom (i + 1) .code ((depth - 1) :: braces) cs := by
  simp [h]

theorem nonCodeSpansFrom_code (hquote : c ≠ '"' ∧ c ≠ '\'' ∧ c ≠ '\x60')
    (hbrace : braces = [] ∨ c ≠ '\x7b' ∧ c ≠ '\x7d') :
    nonCodeSpansFrom i .code braces (c :: cs) = nonCodeSpansFrom (i + 1) .code braces cs := by
  rcases hbrace with rfl | hbrace
  · simp [hquote]
  · cases braces <;> simp [hquote, hbrace]

end

/-- Quoted literals and the text of templates, without the code of interpolations. The
brackets of an interpolation count as text. -/
def nonCodeSpans (cs : List Char) : List Span := nonCodeSpansFrom 0 .code [] cs

def byteOffset (cs : List Char) (n : Nat) : Nat := (cs.take n).foldl (fun b c => b + c.utf8Size) 0

def charOffset : List Char → Nat → Nat
  | _, 0 => 0
  | [], _ => 0
  | c :: cs, bytes => 1 + charOffset cs (bytes - c.utf8Size)

end LiveSheet.Text
