import Mathlib
import LiveSheet.Proofs.Expr.Script
import LiveSheet.Proofs.Token.Layout

/-! Scripts with a line end between them. No complete script runs on into the next line: all of its brackets are closed
and its literals and comments end with it, so the line end separates the two unless a separator is there already. -/

namespace LiveSheet.Parser

open Token (Laid tokens placed lastBehind nestingBehind separates)
open Await (fresh separates_eq)

theorem exists_scripted {text : String} {ps : Program} (h : Program.parse text = .ok ps) :
    ∃ chunks, Laid 0 none text.toList chunks ∧
      Scripted (Template.parts (expressionOf (text.length + 1))) (tokens chunks) ps := by
  obtain ⟨ts, hts, hps⟩ := bind_eq_ok.1 h
  obtain ⟨chunks, hlaid⟩ := Token.exists_laid hts
  have hplaced : ts = _ := Except.ok.inj (hts.symm.trans (hlaid.scan_eq ⟨1, 1⟩))
  refine ⟨chunks, hlaid, (program_eq_ok_iff ?_ hlaid.eof_not_mem).1 hps⟩
  rw [hplaced, List.map_append, Token.map_token_placed]
  rfl

theorem isSeparator_of_fresh {us : List Token} (h : fresh (lastBehind none us) = true) : ∀ t ∈ us.getLast?, isSeparator t := by
  intro t ht
  rw [lastBehind, Option.mem_def.1 ht] at h
  cases t <;> first | exact .inl rfl | exact .inr rfl | cases h

/-- The line end between two texts separates their tokens, unless a separator ends the first text or nothing stands in
it. -/
theorem join {a b : List Char} {as bs : List Token.Chunk} (ha : Laid 0 none a as) (hb : Laid 0 none b bs)
    (hnesting : nestingBehind 0 (tokens as) = 0) : ∃ ts, Token.tokenize (a ++ '\n' :: b) = .ok ts ∧
      ts.map (·.token) = tokens as ++ ((if fresh (lastBehind none (tokens as)) then [] else [.newline]) ++ tokens bs) ++ [.eof] := by
  have hscan := ha.scan (.inr ⟨b, rfl⟩) ⟨1, 1⟩
  have hline : ∀ q, Token.skip false ('\n' :: b) q = ('\n' :: b, q) := fun _ => rfl
  rw [hnesting, Token.scan_lineEnd (hline _)] at hscan
  cases hfresh : fresh (lastBehind none (tokens as)) with
  | false =>
    have hseparates : separates 0 (lastBehind none (tokens as)) = true := by simp [separates_eq, hfresh]
    have hnext : Laid 0 (some .newline) b bs := hb.of_fresh rfl
    rw [hseparates, if_pos rfl, hnext.scan_eq] at hscan
    exact ⟨_, hscan, by simp [Token.map_token_placed, Token.Chunk.token?]⟩
  | true =>
    have hseparates : separates 0 (lastBehind none (tokens as)) = false := by simp [separates_eq, hfresh]
    have hnext : Laid 0 (lastBehind none (tokens as)) b bs := hb.of_fresh hfresh.symm
    rw [hseparates, if_neg Bool.false_ne_true, hnext.scan_eq] at hscan
    exact ⟨_, hscan, by simp [Token.map_token_placed, Token.Chunk.token?]⟩

/-- Joining two scripts with a line end joins their statements. -/
theorem parse_join {a b : String} {ps qs : Program} (ha : Program.parse a = .ok ps) (hb : Program.parse b = .ok qs) :
    Program.parse (a ++ "\n" ++ b) = .ok (ps ++ qs) := by
  obtain ⟨as, has, hps⟩ := exists_scripted ha
  obtain ⟨bs, hbs, hqs⟩ := exists_scripted hb
  obtain ⟨ts, hts, htokens⟩ := join has hbs (hps.balanced 0)
  have hextends : ∀ {n}, n ≤ (a ++ "\n" ++ b).length →
      Extends (Template.parts (expressionOf (n + 1))) (Template.parts (expressionOf ((a ++ "\n" ++ b).length + 1))) :=
    fun hle => extends_parts fun _ _ => expressionOf_mono (Nat.succ_le_succ hle)
  have hleft := hps.mono (hextends (by simp; omega))
  have hright := hqs.mono (hextends (by simp))
  have hjoined : Scripted (Template.parts (expressionOf ((a ++ "\n" ++ b).length + 1)))
      (tokens as ++ ((if fresh (lastBehind none (tokens as)) then [] else [.newline]) ++ tokens bs)) (ps ++ qs) := by
    split
    · next hfresh => exact hleft.append hright (.inl (isSeparator_of_fresh hfresh))
    · exact hleft.append (.separator (.inl rfl) hright) (.inr fun t ht => .inl (by simpa using ht.symm))
  have htext : (a ++ "\n" ++ b).toList = a.toList ++ '\n' :: b.toList := by simp
  refine bind_eq_ok.2 ⟨ts, htext ▸ hts, (program_eq_ok_iff htokens ?_).2 hjoined⟩
  have hnone := has.eof_not_mem
  have hnone' := hbs.eof_not_mem
  split <;> simp [hnone, hnone']

/-- The second line would continue the first, but for the line end between them. -/
theorem parse_join_sign : Program.parse ("let x = (a +\nb) // sum" ++ "\n" ++ "-x; 'y'") =
    .ok [.bind "x" (.binary .add (.identifier "a") (.identifier "b")), .expr (.unary .negate (.identifier "x")),
      .expr (.string "y")] := by
  have ha : Program.parse "let x = (a +\nb) // sum" =
    .ok [.bind "x" (.binary .add (.identifier "a") (.identifier "b"))] := by cbv
  have hb : Program.parse "-x; 'y'" = .ok [.expr (.unary .negate (.identifier "x")), .expr (.string "y")] := by cbv
  exact parse_join ha hb

end LiveSheet.Parser
