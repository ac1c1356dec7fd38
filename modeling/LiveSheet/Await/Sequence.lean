import LiveSheet.Await.Pattern
import LiveSheet.Integration
import LiveSheet.Text.Surroundings

/-!
Sequencing: deferred calls are awaited, so that their values are there before they are used.
A call of a deferred operation that does not stand behind `await` already is put into
`(await …)`, and so are the deferred calls in its arguments. Calls in literals and calls of
members are left alone. The text is not parsed: a call is a pattern with a parenthesis that
some other one closes.
-/

namespace LiveSheet.Await

inductive Mode where
  | expression
  /-- A script, which can also write to variables. -/
  | command
  deriving DecidableEq, Repr, Hashable

/-- The functions that write to variables. They count as deferred in scripts. -/
def writers : List String := ["setValue", "addValue"]

def deferredCalls {σ : Type} (set : IntegrationSet σ) (mode : Mode) : List String :=
  match mode with
  | .expression => set.deferredCalls
  | .command => set.deferredCalls ++ writers

def callPatterns (names : List String) : List Pattern := (names.mergeSort precedes).map callPattern

theorem mem_callPatterns {names : List String} {p : Pattern} :
    p ∈ callPatterns names ↔ ∃ name ∈ names, callPattern name = p := by
  simp only [callPatterns, List.mem_map, List.mem_mergeSort]

theorem callPatterns_writers : callPatterns writers = [callPattern "addValue", callPattern "setValue"] := by
  have hlater : precedes "setValue" "addValue" = false := by decide +kernel
  simp [callPatterns, writers, List.mergeSort, hlater]

def splitParen (cs : List Char) : Option (List Char × List Char) :=
  (Text.parenDistance 1 .code cs).map fun n => (cs.take n, cs.drop (n + 1))

theorem length_of_parenDistance {depth n : Nat} {q : Text.Quoting} {cs : List Char}
    (h : Text.parenDistance depth q cs = some n) : n < cs.length := by
  fun_induction Text.parenDistance depth q cs generalizing n <;> grind [Option.map_eq_some_iff]

theorem length_of_splitParen {cs args rest : List Char} (h : splitParen cs = some (args, rest)) :
    args.length + rest.length < cs.length := by
  obtain ⟨n, hn, heq⟩ := Option.map_eq_some_iff.1 h
  have := length_of_parenDistance hn
  simp only [Prod.mk.injEq] at heq
  grind

def awaitCall (awaited : Bool) (call args : List Char) : List Char :=
  if awaited then call ++ args ++ [')'] else "(await ".toList ++ call ++ args ++ "))".toList

/-- Sequences the text from position `i` on, given the text before it backwards and the spans
that are no code. Behind a parenthesis without end nothing is changed. -/
def sequenceFrom (patterns : List Pattern) (spans : List Text.Span) (i : Nat) (before cs : List Char) :
    List Char :=
  match _hm : firstMatch patterns before cs with
  | none =>
    match cs with
    | [] => []
    | c :: rest => c :: sequenceFrom patterns spans (i + 1) (c :: before) rest
  | some call =>
    if Text.inSpans spans i || Text.followsDot before then
      call.text ++ sequenceFrom patterns spans (i + call.text.length) (call.text.reverse ++ before)
        call.rest
    else
      match _hs : splitParen call.rest with
      | none => cs
      | some (args, rest) =>
        let length := call.text.length + args.length + 1
        awaitCall (Text.followsWord "await" before) call.text
            (sequenceFrom patterns (Text.nonCodeSpans args) 0 [] args)
          ++ sequenceFrom patterns spans (i + length) ((cs.take length).reverse ++ before) rest
termination_by cs.length
decreasing_by
  · simp
  all_goals have := eq_of_firstMatch _hm
  · grind
  · grind [length_of_splitParen _hs]
  · grind [length_of_splitParen _hs]

def sequenceCalls (names : List String) (cs : List Char) : List Char :=
  sequenceFrom (callPatterns names) (Text.nonCodeSpans cs) 0 [] cs

def sequence {σ : Type} (set : IntegrationSet σ) (mode : Mode) (text : String) : String :=
  String.ofList (sequenceCalls (deferredCalls set mode) text.toList)

def foundFrom (patterns : List Pattern) (spans : List Text.Span) (i : Nat) (before cs : List Char) :
    List String :=
  match _hm : firstMatch patterns before cs with
  | none =>
    match cs with
    | [] => []
    | c :: rest => foundFrom patterns spans (i + 1) (c :: before) rest
  | some m =>
    let others := foundFrom patterns spans (i + m.text.length) (m.text.reverse ++ before) m.rest
    if Text.inSpans spans i || Text.followsDot before then others else m.name :: others
termination_by cs.length
decreasing_by
  · simp
  · grind [eq_of_firstMatch _hm]

def invoked {σ : Type} (set : IntegrationSet σ) (text : String) : NameSet :=
  let cs := text.toList
  NameSet.ofNames (foundFrom (set.namespaces.map ownerPattern) (Text.nonCodeSpans cs) 0 [] cs)

end LiveSheet.Await
