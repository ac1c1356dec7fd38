import LiveSheet.Await.Sequence
import LiveSheet.Proofs.Placeholder.Splitting
import LiveSheet.Proofs.Text.Literals
import LiveSheet.Reference

/-! What the passes over a text leave alone. Expansion passes over the braces in literals, sequencing and the search for
references pass over what is no code. Where no interpolation can begin, these are the same places. -/

namespace LiveSheet

namespace Placeholder

/-- Expansion with the spans at hand whose braces are passed over. The text between two braces has spans of its own. -/
def expandOutside (skipped : List Char → List Text.Span) (lookup : String → Option Value) (mode : Mode)
    (spans : List Text.Span) (i : Nat) (cs : List Char) : Except SheetError (List Char) :=
  match cs with
  | [] => .ok []
  | c :: cs =>
    if c = '\x7b' ∧ Text.inSpans spans i = false then
      match _h : Text.splitBrace 1 cs with
      | some (inner, rest) => do
        let inner' ← expandOutside skipped lookup mode (skipped inner) 0 inner
        let shown ← replacement lookup mode inner'
        let rest' ← expandOutside skipped lookup mode spans (i + inner.length + 2) rest
        return shown ++ rest'
      | none => (expandOutside skipped lookup mode spans (i + 1) cs).map (c :: ·)
    else (expandOutside skipped lookup mode spans (i + 1) cs).map (c :: ·)
termination_by cs.length
decreasing_by
  all_goals simp_wf
  · grind [Text.eq_of_splitBrace _h]
  · grind [Text.eq_of_splitBrace _h]

/-- The places of a text whose braces stay as they are. -/
def Mode.skipped (mode : Mode) (cs : List Char) : List Text.Span :=
  match mode with
  | .display => []
  | .source => Text.literalSpans true cs

variable {lookup : String → Option Value} {mode : Mode} {cs : List Char}

theorem inSpans_skipped (before cs : List Char) :
    Text.inSpans (mode.skipped (before ++ '\x7b' :: cs)) before.length = false ↔ mode.afterAll before .code = .code := by
  cases mode with
  | display => exact iff_of_true rfl (afterAll_display before)
  | source =>
    have hchar : (before ++ '\x7b' :: cs)[before.length]? = some '\x7b' := by simp
    have hstate : Text.Quoting.code.along true before = Mode.source.afterAll before .code := rfl
    rw [Mode.skipped, Text.inSpans_literalSpans hchar, List.take_left, hstate]
    simp [Text.opens]

theorem expandOutside_eq (before cs : List Char) : expandOutside mode.skipped lookup mode (mode.skipped (before ++ cs))
    before.length cs = expandFrom lookup mode (mode.afterAll before .code) cs := by
  induction hlength : cs.length using Nat.strongRecOn generalizing before cs with
  | _ n ih =>
    subst hlength
    -- what is behind some of the characters is gone through with these before it
    have hbehind : ∀ xs ys : List Char, ys.length < cs.length → cs = xs ++ ys →
        expandOutside mode.skipped lookup mode (mode.skipped (before ++ cs)) (before.length + xs.length) ys =
          expandFrom lookup mode (mode.afterAll xs (mode.afterAll before .code)) ys := by
      rintro xs ys hshorter rfl
      have hnext := ih ys.length hshorter (before ++ xs) ys rfl
      rwa [List.append_assoc, List.length_append, afterAll_append] at hnext
    cases cs with
    | nil => rw [expandOutside, expandFrom]
    | cons c cs =>
      rw [expandOutside]
      by_cases hbrace : c = '\x7b' ∧ mode.afterAll before .code = .code
      · obtain ⟨rfl, hcode⟩ := hbrace
        rw [if_pos ⟨rfl, (inSpans_skipped before cs).2 hcode⟩, hcode]
        split
        · next inner rest hsplit =>
          obtain rfl := Text.eq_of_splitBrace hsplit
          have hinner := ih inner.length (by simp) [] inner rfl
          have hrest := hbehind ('\x7b' :: (inner ++ ['\x7d'])) rest (by simp; omega) (by simp)
          rw [hcode, afterAll_brace] at hrest
          rw [expandFrom_brace hsplit]
          simp only [List.nil_append, List.length_nil] at hinner
          simp only [List.length_cons, List.length_append, List.length_nil] at hrest
          rw [hinner, Nat.add_assoc before.length, ← hrest]
          rfl
        · next hsplit =>
          have hrest := hbehind ['\x7b'] cs (by simp) rfl
          rw [hcode, afterAll_brace] at hrest
          rw [expandFrom_open hsplit]
          exact congrArg _ hrest
      · have hskip : ¬(c = '\x7b' ∧ Text.inSpans (mode.skipped (before ++ c :: cs)) before.length = false) := by
          rintro ⟨rfl, hspans⟩
          exact hbrace ⟨rfl, (inSpans_skipped before cs).1 hspans⟩
        have hrest := hbehind [c] cs (by simp) rfl
        rw [if_neg hskip, expandFrom_plain hbrace]
        exact congrArg _ hrest

theorem expandOutside_congr {skipped skipped' : List Char → List Text.Span} (spans : List Text.Span) (i : Nat)
    (h : ∀ part, part <:+: cs → skipped part = skipped' part) :
    expandOutside skipped lookup mode spans i cs = expandOutside skipped' lookup mode spans i cs := by
  induction hlength : cs.length using Nat.strongRecOn generalizing spans i cs with
  | _ n ih =>
    subst hlength
    cases cs with
    | nil => rw [expandOutside, expandOutside]
    | cons c cs =>
      have htail := ih cs.length (by simp) spans (i + 1) (fun part hpart => h part (hpart.trans (List.suffix_cons c cs).isInfix)) rfl
      rw [expandOutside, expandOutside, htail]
      split
      · split
        · next inner rest hsplit =>
          obtain rfl := Text.eq_of_splitBrace hsplit
          have hinner : inner <:+: c :: (inner ++ '\x7d' :: rest) := ⟨[c], '\x7d' :: rest, by simp⟩
          have hrest : rest <:+: c :: (inner ++ '\x7d' :: rest) := ⟨c :: (inner ++ ['\x7d']), [], by simp⟩
          rw [h inner hinner, ih inner.length (by simp) _ _ (fun part hpart => h part (hpart.trans hinner)) rfl,
            ih rest.length (by simp; omega) _ _ (fun part hpart => h part (hpart.trans hrest)) rfl]
        · rfl
      · rfl

theorem expand_eq_expandOutside (lookup : String → Option Value) (mode : Mode) (text : String) : expand lookup mode text =
    (expandOutside mode.skipped lookup mode (mode.skipped text.toList) 0 text.toList).map String.ofList :=
  congrArg _ (expandOutside_eq [] text.toList).symm

end Placeholder

open Text in
/-- Where no `$` stands before a brace, all passes leave the same places alone: in the text and in every part of it
that is gone through by itself, what is no code are the literals. -/
theorem skipped_alike {text : String} (hplain : ¬['$', '\x7b'] <:+: text.toList) :
    (∀ part, part <:+: text.toList → nonCodeSpans part = literalSpans true part) ∧
    (∀ lookup, Placeholder.expand lookup .source text = (Placeholder.expandOutside nonCodeSpans lookup .source
      (nonCodeSpans text.toList) 0 text.toList).map String.ofList) ∧
    (∀ names, Await.sequenceCalls names text.toList = Await.sequenceFrom (Await.callPatterns names)
      (literalSpans true text.toList) 0 [] text.toList) ∧
    (∀ owners, Await.foundFrom owners (nonCodeSpans text.toList) 0 [] text.toList =
      Await.foundFrom owners (literalSpans true text.toList) 0 [] text.toList) ∧
    References.codeWords text =
      (wordsFrom 0 [] text.toList).filter fun w => !inSpans (literalSpans true text.toList) w.start := by
  have hparts : ∀ part, part <:+: text.toList → nonCodeSpans part = literalSpans true part :=
    fun part hpart => nonCodeSpans_eq_literalSpans fun hmem => hplain (hmem.trans hpart)
  have hwhole := hparts text.toList List.infix_rfl
  refine ⟨hparts, fun lookup => ?_, fun names => ?_, fun owners => ?_, ?_⟩
  · rw [Placeholder.expand_eq_expandOutside, Placeholder.expandOutside_congr _ 0 hparts, hwhole]
    rfl
  · rw [Await.sequenceCalls, hwhole]
  · rw [hwhole]
  · rw [References.codeWords, hwhole]

theorem skipped_alike_mixed : ¬['$', '\x7b'] <:+: "'\x7ba\x7d' + `\x7bb\x7d $ \x7bc\x7d` + \x7bd\x7d".toList ∧
    Text.nonCodeSpans "'\x7ba\x7d' + `\x7bb\x7d $ \x7bc\x7d` + \x7bd\x7d".toList = [⟨0, 5⟩, ⟨8, 19⟩] ∧
    Text.literalSpans true "'\x7ba\x7d' + `\x7bb\x7d $ \x7bc\x7d` + \x7bd\x7d".toList = [⟨0, 5⟩, ⟨8, 19⟩] := by
  have hplain : ¬['$', '\x7b'] <:+: "'\x7ba\x7d' + `\x7bb\x7d $ \x7bc\x7d` + \x7bd\x7d".toList := by decide
  have hspans : Text.nonCodeSpans "'\x7ba\x7d' + `\x7bb\x7d $ \x7bc\x7d` + \x7bd\x7d".toList = [⟨0, 5⟩, ⟨8, 19⟩] := by cbv
  exact ⟨hplain, hspans, ((skipped_alike hplain).1 _ List.infix_rfl).symm.trans hspans⟩

end LiveSheet
