/-!
Braces that balance. Quotes do not matter here.
-/

namespace LiveSheet.Text

def depthAfter (depth : Nat) (c : Char) : Nat :=
  if c = '\x7b' then depth + 1 else if c = '\x7d' then depth - 1 else depth

/-- The text up to the brace that closes the last of `depth` open ones, and the text after
that brace. -/
def splitBrace (depth : Nat) : List Char → Option (List Char × List Char)
  | [] => none
  | c :: cs =>
    if c = '\x7d' ∧ depth = 1 then some ([], cs)
    else (splitBrace (depthAfter depth c) cs).map fun (inner, rest) => (c :: inner, rest)

theorem eq_of_splitBrace {depth : Nat} {cs inner rest : List Char}
    (h : splitBrace depth cs = some (inner, rest)) : cs = inner ++ '\x7d' :: rest := by
  fun_induction splitBrace depth cs generalizing inner rest with
  | case1 => simp at h
  | case2 => grind
  | case3 _ c cs _ ih =>
    obtain ⟨⟨a, b⟩, hab, heq⟩ := Option.map_eq_some_iff.1 h
    have := ih hab
    simp only [Prod.mk.injEq] at heq
    grind

end LiveSheet.Text
