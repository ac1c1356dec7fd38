import LiveSheet.Proofs.Await.Source
import LiveSheet.Proofs.Expr.Overt

/-! Where the calls of a text and of its program are the same. The pass over the text knows words,
dots, quotes and parentheses, but no tokens: it takes the end of a word behind a dollar for a word of
its own, a whole template for one literal when it looks for the end of a call, and it sees an `await`
only right before the name. -/

namespace LiveSheet.Await

/-- What stands before a piece of text. -/
inductive Lead where
  | other
  | dot
  | await
  deriving DecidableEq

def Lead.after : Token → Lead
  | .dot => .dot
  | .awaitWord => .await
  | _ => .other

theorem Lead.after_eq_await (t : Token) : Lead.after t = .await ↔ t = .awaitWord := by
  cases t <;> simp [Lead.after]

/-- The pieces make a call of one of the names out of a word before them. -/
inductive Source.Calls (names : List String) (word : List Char) : Source → Prop where
  | name {gap inner rest} (h : String.ofList word ∈ names) : Calls names word (.group gap .round inner rest)
  | member {gap₁ gap₂ gap₃ text inner rest} (h : String.ofList word ++ "." ++ String.ofList text ∈ names) :
    Calls names word (.leaf gap₁ (.mark .dot) (.leaf gap₂ (.word text) (.group gap₃ .round inner rest)))

/-- No word that the pass finds in the atom is called. It finds them behind anything but a word
character, so also inside of words and behind the sign of an exponent. -/
def Atom.Quiet (names : List String) (lead : Lead) (rest : Source) : Atom → Prop
  | word text => ∀ xs ys, text = xs ++ ys → xs.getLast?.any Text.isWord = false → (xs = [] → lead ≠ .dot) →
    ¬rest.Calls names ys
  | number first text _ _ => ∀ xs c ys, first :: text = xs ++ c :: ys → xs.getLast?.any Text.isWord = false →
    Text.isVariableStart c = false
  | _ => True

/-- No backtick in the code of the template could end it. -/
def Segments.Opaque : Segments → Prop
  | .last _ => True
  | .code _ inner rest => '\x60' ∉ inner.chars ∧ rest.Opaque

/-- Counting parentheses outside of literals gets even over the text. -/
def Source.Even : Source → Prop
  | .done _ => True
  | .leaf _ _ rest => rest.Even
  | .template _ body rest => body.Opaque ∧ rest.Even
  | .group _ _ inner rest => inner.Even ∧ rest.Even
  | .call _ _ args rest => args.Even ∧ rest.Even

/-- No callee and no awaited call of the text hides in parentheses. -/
def Source.Overt (names : List String) (src : Source) : Prop :=
  ∀ ts : Parser.Tokens, ts.map (·.token) = src.tokens 0 true ++ [.eof] → Parser.Overt names ts

mutual

/-- The pass finds the calls of the text and nothing else, given what stands before it. -/
def Source.Clear (names : List String) (nesting : Nat) (lead : Lead) : Source → Prop
  | .done _ => True
  | .leaf gap atom rest => (lead = .dot → nesting = 0 → '\n' ∉ gap) ∧ atom.Quiet names lead rest ∧
    rest.Clear names nesting (.after atom.token)
  | .template _ body rest => body.Clear names ∧ rest.Clear names nesting .other
  | .group _ _ inner rest => inner.Clear names (nesting + 1) .other ∧ rest.Clear names nesting .other
  | .call gap _ args rest => lead ≠ .dot ∧ (lead = .await → (nesting = 0 → '\n' ∉ gap) ∧
      ∀ t ts, rest.tokens nesting false = t :: ts → ¬Parser.isSuffix t) ∧
    args.Even ∧ args.Clear names (nesting + 1) .other ∧ rest.Clear names nesting .other

def Segments.Clear (names : List String) : Segments → Prop
  | .last _ => True
  | .code _ inner rest => inner.Clear names 0 .other ∧ inner.Overt names ∧ rest.Clear names

end

end LiveSheet.Await
