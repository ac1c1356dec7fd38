import LiveSheet.Proofs.Eval.Failures
import LiveSheet.Proofs.Eval.SourceTokens
import LiveSheet.Proofs.Expr.Faults
import LiveSheet.Proofs.Expr.Nesting
import LiveSheet.Proofs.Reference.Pieces

/-! Checking a text and evaluating it. The check reads null where evaluation reads the values of the placeholders. -/

namespace LiveSheet.Eval
open Await Token LiveSheet.Parser Placeholder

/-- A value behind the text makes no difference, nor does the rest of its line: they belong to a comment, or nothing can
be read where a value stands there. -/
def Idle (front : List Char) : Prop := ∀ (v : Value) next,
  lex 0 none (front ++ (v.sourceChars ++ next)) = lex 0 none (front ++ next.dropWhile (· != '\n'))

/-- An operand between two texts is not read together with either of them. -/
structure Between (front next : List Char) : Prop where
  lexed : (lex 0 none front).isSome = true
  closed : Closed front
  clear : Clear next

/-- An operand may stand behind the text. -/
def Opening (front : List Char) : Prop := ∀ us, lex 0 none front = some (us ++ [.eof]) → opensBehind true us = true

/-- Where the reading of a text has come to: its start, behind an operand, or in a line that makes no difference, with
some text left to read in front of the next. -/
inductive Place where
  | start
  | operand
  | line (left : List Char)

namespace Place

def Admits : Place → List Char → Prop
  | operand, next => Clear next
  | _, _ => True

def left : Place → List Char → List Char
  | line left, next => left ++ next.dropWhile (· != '\n')
  | _, next => next

end Place

variable {nesting : Nat} {last : Option Token} {us vs ts ts' : List Token} {run cs next : List Char}
  {place : Place} {before ps : List Piece} {v : Value} {O : Prop}

theorem dropWhile_inline (h : '\n' ∉ cs) (next : List Char) :
    (cs ++ next).dropWhile (· != '\n') = next.dropWhile (· != '\n') := by
  refine List.dropWhile_append_of_pos fun c hc => ?_
  have hne : c ≠ '\n' := fun heq => h (heq ▸ hc)
  simpa using hne

theorem clear_of_clear (h : Clear (run ++ cs)) (hne : run ≠ []) (hpoint : run ≠ ['.']) (next : List Char) :
    Clear (run ++ next) := by
  match run, hne, hpoint with
  | [c], _, hpoint => exact clear_of_head h.part (fun hc => hpoint (by rw [hc])) next
  | c :: d :: run, _, _ =>
    by_cases hc : c = '.'
    · subst hc
      exact ⟨h.part, h.point⟩
    · exact clear_of_head h.part hc _

theorem Place.left_cases (place : Place) (run : List Char) :
    (∃ r, ∀ x, place.left (run ++ x) = r ++ x.dropWhile (· != '\n')) ∨
    (∀ x, place.left (run ++ x) = place.left run ++ x) ∧ ∀ front, Closed (front ++ run) → Closed (place.left run) := by
  cases place with
  | start => exact .inr ⟨fun _ => rfl, fun front => Closed.of_append front⟩
  | operand => exact .inr ⟨fun _ => rfl, fun front => Closed.of_append front⟩
  | line r =>
    by_cases hdrop : run.dropWhile (· != '\n') = []
    · refine .inl ⟨r, fun x => ?_⟩
      rw [Place.left, List.dropWhile_append, hdrop]
      rfl
    · refine .inr ⟨fun x => ?_, fun front h => ?_⟩
      · rw [Place.left, Place.left, List.dropWhile_append, if_neg (by simpa using hdrop), List.append_assoc]
      · rw [← List.takeWhile_append_dropWhile (p := (· != '\n')) (l := run), ← List.append_assoc] at h
        intro c hc
        refine h.of_append _ c ?_
        rw [Place.left, List.getLast?_append, Option.or_of_isSome (by simpa using hdrop)] at hc
        exact hc

/-! ## One placeholder after the other -/

/-- What has been read of a text with null for its values is what has been read of the text with the values, but for
operands in the place of operands, and it goes on in the same way. -/
structure Reached (O : Prop) (before : List Piece) (place : Place) (nesting : Nat) (last : Option Token)
    (ts ts' : List Token) : Prop where
  nulls : ∀ next, place.Admits next →
    lex 0 none (blanked before ++ next) = (lex nesting last (place.left next)).map (ts ++ ·)
  values : ∀ next, place.Admits next →
    lex 0 none (written before ++ next) = (lex nesting last (place.left next)).map (ts' ++ ·)
  forth : ∀ us vs, Swaps (opensBehind true ts) us vs → Swaps true (ts ++ us) (ts' ++ vs)
  back : O → ∀ us vs, Swaps (opensBehind true ts) us vs → Swaps true (ts' ++ us) (ts ++ vs)

theorem reached_start (O : Prop) : Reached O [] .start 0 none [] [] := by
  have hnone : ∀ next, lex 0 none next = (lex 0 none next).map (([] : List Token) ++ ·) := by
    intro next
    cases lex 0 none next <;> rfl
  exact ⟨fun next _ => hnone next, fun next _ => hnone next, fun _ _ h => h, fun _ _ _ h => h⟩

namespace Reached

theorem line (h : Reached O before place nesting last ts ts') {r : List Char}
    (hleft : ∀ next, place.left (run ++ next) = r ++ next.dropWhile (· != '\n'))
    (hadmits : ∀ next, place.Admits (run ++ next)) (v : Value) :
    Reached O (before ++ run.map Piece.char ++ [Piece.value v]) (.line r) nesting last ts ts' := by
  refine ⟨fun next _ => ?_, fun next _ => ?_, h.forth, h.back⟩
  · rw [blanked_value, blanked_run, List.append_assoc, List.append_assoc, h.nulls _ (hadmits _), hleft,
      dropWhile_inline (inline_source .null).line]
    rfl
  · rw [written_value, written_run, List.append_assoc, List.append_assoc, h.values _ (hadmits _), hleft,
      dropWhile_inline (inline_source v).line]
    rfl

theorem idle (h : Reached O before place nesting last ts ts')
    (hleft : ∀ next, place.left (run ++ next) = place.left run ++ next) (hadmits : ∀ next, place.Admits (run ++ next))
    (hidle : Idle (blanked (before ++ run.map Piece.char))) (v : Value) :
    Reached O (before ++ run.map Piece.char ++ [Piece.value v]) (.line (place.left run)) nesting last ts ts' := by
  have hsame : ∀ (v : Value) next, lex nesting last (place.left run ++ (v.sourceChars ++ next)) =
      lex nesting last (place.left run ++ next.dropWhile (· != '\n')) := by
    intro v next
    have hline := hidle v next
    rw [blanked_run, List.append_assoc, List.append_assoc, h.nulls _ (hadmits _), h.nulls _ (hadmits _), hleft,
      hleft] at hline
    exact Option.map_injective (List.append_right_injective ts) hline
  refine ⟨fun next _ => ?_, fun next _ => ?_, h.forth, h.back⟩
  · rw [blanked_value, blanked_run, List.append_assoc, List.append_assoc, h.nulls _ (hadmits _), hleft, hsame]
    rfl
  · rw [written_value, written_run, List.append_assoc, List.append_assoc, h.values _ (hadmits _), hleft, hsame]
    rfl

theorem commented (h : Reached O before place nesting last ts ts')
    (hleft : ∀ next, place.left (run ++ next) = place.left run ++ next) (hadmits : ∀ next, place.Admits (run ++ next))
    {chunks : List Chunk} (hlaid : Laid nesting last (place.left run) chunks) (hcomment : InComment chunks) :
    Reached O (before ++ run.map Piece.char) (.line []) (nestingBehind nesting (tokens chunks))
      (lastBehind last (tokens chunks)) (ts ++ tokens chunks) (ts' ++ tokens chunks) := by
  have hassoc : ∀ {us : List Token} {r : Option (List Token)},
      (r.map (tokens chunks ++ ·)).map (us ++ ·) = r.map (us ++ tokens chunks ++ ·) := by
    intro us r
    rw [Option.map_map]
    exact congrArg₂ Option.map (funext fun vs => (List.append_assoc ..).symm) rfl
  refine ⟨fun next _ => ?_, fun next _ => ?_, fun us vs hus => ?_, fun ho us vs hus => ?_⟩
  · rw [blanked_run, List.append_assoc, h.nulls _ (hadmits _), hleft, hlaid.lex_behind (.comment hcomment), hassoc]
    rfl
  · rw [written_run, List.append_assoc, h.values _ (hadmits _), hleft, hlaid.lex_behind (.comment hcomment), hassoc]
    rfl
  · rw [opensBehind_append] at hus
    simpa only [List.append_assoc] using h.forth _ _ (Swaps.behind hus)
  · rw [opensBehind_append] at hus
    simpa only [List.append_assoc] using h.back ho _ _ (Swaps.behind hus)

theorem operand (h : Reached O before place nesting last ts ts')
    (hleft : ∀ next, place.left (run ++ next) = place.left run ++ next) (hadmits : ∀ next, place.Admits (run ++ next))
    {chunks : List Chunk} (hlaid : Laid nesting last (place.left run) chunks) (hcode : ¬InComment chunks)
    (hclosed : Closed (place.left run)) (v : Value)
    (hopens : O → opensBehind true (ts ++ tokens chunks) = true ∨ Simple v.sourceChars) :
    ∃ vts, Reached O (before ++ run.map Piece.char ++ [Piece.value v]) .operand (nestingBehind nesting (tokens chunks))
      (some .nullWord) (ts ++ (tokens chunks ++ [.nullWord])) (ts' ++ (tokens chunks ++ vts)) := by
  obtain ⟨vts, _, hdepicts, hsays, hsimple⟩ := exists_depicted v
  have hsigned := hdepicts.signed
  have hread : ∀ {w : List Char} {us wts : List Token}, Inline w → Says w wts → ∀ next, Clear next →
      (lex nesting last (place.left run ++ (w ++ next))).map (us ++ ·) =
        (lex (nestingBehind nesting (tokens chunks)) (some .nullWord) next).map
          (us ++ (tokens chunks ++ wts) ++ ·) := by
    intro w us wts hinline hsays next hnext
    obtain ⟨c, rest, rfl, hequal, hslash⟩ := hinline.head
    have hparted : Parted (place.left run) (c :: rest ++ next) :=
      ⟨hclosed, by simpa using hequal, by simpa using hslash⟩
    rw [hlaid.lex_behind (.code hcode hparted), hsays _ _ next hnext, Option.map_map, Option.map_map]
    refine congrArg₂ Option.map (funext fun vs => ?_) rfl
    simp
  have hlast : opensBehind true (ts ++ (tokens chunks ++ [.nullWord])) = false := by
    rw [← List.append_assoc, opensBehind_append]
    rfl
  refine ⟨vts, fun next hnext => ?_, fun next hnext => ?_, fun us vs hus => ?_, fun ho us vs hus => ?_⟩
  · rw [blanked_value, blanked_run, List.append_assoc, List.append_assoc, h.nulls _ (hadmits _), hleft,
      hread (inline_source .null) says_null next hnext]
    rfl
  · rw [written_value, written_run, List.append_assoc, List.append_assoc, h.values _ (hadmits _), hleft,
      hread (inline_source v) hsays next hnext]
    rfl
  · rw [hlast] at hus
    have hswap : Swaps (opensBehind (opensBehind true ts) (tokens chunks)) ([.nullWord] ++ us) (vts ++ vs) :=
      .operand signed_null hsigned (.inr ⟨_, rfl, rfl⟩) hus
    simpa only [List.append_assoc] using h.forth _ _ (Swaps.behind hswap)
  · rw [hlast] at hus
    have hswap : Swaps (opensBehind (opensBehind true ts) (tokens chunks)) (vts ++ us) ([.nullWord] ++ vs) := by
      rw [← opensBehind_append]
      exact .operand hsigned signed_null ((hopens ho).imp_right hsimple) hus
    simpa only [List.append_assoc] using h.back ho _ _ (Swaps.behind hswap)

theorem ne_point (h : Reached O before .operand nesting last ts ts')
    (hstands : Idle (blanked (before ++ run.map Piece.char)) ∨ Between (blanked (before ++ run.map Piece.char)) next) :
    run ≠ ['.'] := by
  rintro rfl
  rw [blanked_run] at hstands
  rcases hstands with hidle | hbetween
  · -- null behind the point is read
    have hread : ∀ rest, rest.head?.any Char.isDigit = false → lex nesting last ('.' :: rest) =
        (lex nesting (some .dot) rest).map (.dot :: ·) := by
      intro rest hrest
      have hdot : read '.' rest ⟨1, 1⟩ = .ok ⟨.dot, rest, Position.right ⟨1, 1⟩ 1⟩ := by
        rw [Token.read, hrest]
        rfl
      exact lex_token rfl (by decide) hdot
    have hnull : lex nesting (some .dot) "null".toList = some [.nullWord, .eof] := by
      rw [← List.append_nil "null".toList, says_null _ _ [] ⟨rfl, rfl⟩, lex_nil]
      rfl
    have hvalue : lex 0 none (blanked before ++ ['.'] ++ "null".toList) = some (ts ++ [.dot, .nullWord, .eof]) := by
      rw [List.append_assoc, h.nulls (['.'] ++ "null".toList) ⟨by decide, rfl⟩]
      exact congrArg _ ((hread "null".toList rfl).trans (congrArg _ hnull))
    have halone : lex 0 none (blanked before ++ ['.']) = some (ts ++ [.dot, .eof]) := by
      rw [h.nulls ['.'] ⟨by decide, rfl⟩]
      exact congrArg _ ((hread [] rfl).trans (congrArg _ lex_nil))
    have hline := hidle .null []
    rw [List.append_nil, List.dropWhile_nil, List.append_nil, halone] at hline
    have hsame := Option.some.inj (hvalue.symm.trans hline)
    simp at hsame
  · exact (hbetween.closed '.' (by simp)).2 rfl

theorem step (h : Reached O before place nesting last ts ts') {rest : List Piece}
    (hclear : place = .operand → Clear (run ++ blanked (.value v :: rest)))
    (hstands : Idle (blanked (before ++ run.map Piece.char)) ∨ Between (blanked (before ++ run.map Piece.char)) next)
    (hopens : O → Idle (blanked (before ++ run.map Piece.char)) ∨ Opening (blanked (before ++ run.map Piece.char)) ∨
      Simple v.sourceChars) :
    ∃ place' nesting' last' us us',
      Reached O (before ++ run.map Piece.char ++ [Piece.value v]) place' nesting' last' us us' ∧
        (place' = .operand → Clear next) := by
  have hadmits : ∀ next, place.Admits (run ++ next) := by
    intro next
    cases place with
    | start => trivial
    | line => trivial
    | operand =>
      refine clear_of_clear (hclear rfl) ?_ (h.ne_point hstands) next
      rintro rfl
      have hpart : Text.isNamePart 'n' = false := (hclear rfl).part
      exact absurd hpart (by decide)
  rcases place.left_cases run with ⟨r, hleft⟩ | ⟨hleft, hclosed⟩
  · exact ⟨_, _, _, _, _, h.line hleft hadmits v, by rintro ⟨⟩⟩
  · by_cases hidle : Idle (blanked (before ++ run.map Piece.char))
    · exact ⟨_, _, _, _, _, h.idle hleft hadmits hidle v, by rintro ⟨⟩⟩
    · have hbetween := hstands.resolve_left hidle
      have hfront : lex 0 none (blanked (before ++ run.map Piece.char)) =
          (lex nesting last (place.left run)).map (ts ++ ·) := by
        have hread := h.nulls (run ++ []) (hadmits [])
        rwa [hleft, List.append_nil, List.append_nil, ← blanked_run] at hread
      obtain ⟨us, hus⟩ : ∃ us, lex nesting last (place.left run) = some us := by
        have hsome := hbetween.lexed
        rw [hfront, Option.isSome_map] at hsome
        exact Option.isSome_iff_exists.1 hsome
      obtain ⟨chunks, hlaid, rfl⟩ := lex_eq_some.1 hus
      by_cases hcomment : InComment chunks
      · have hline : Reached O (before ++ run.map Piece.char ++ ([] : List Char).map Piece.char ++ [Piece.value v])
            (.line []) _ _ _ _ :=
          (h.commented hleft hadmits hlaid hcomment).line (fun _ => rfl) (fun _ => trivial) v
        rw [List.map_nil, List.append_nil] at hline
        exact ⟨_, _, _, _, _, hline, by rintro ⟨⟩⟩
      · have hclosed' := hclosed (blanked before) (blanked_run before run ▸ hbetween.closed)
        have hopens' : O → opensBehind true (ts ++ tokens chunks) = true ∨ Simple v.sourceChars := by
          intro ho
          refine ((hopens ho).resolve_left hidle).imp_left fun hopening => hopening _ ?_
          rw [hfront, hus, Option.map_some, List.append_assoc]
        obtain ⟨vts, hoperand⟩ := h.operand hleft hadmits hlaid hcomment hclosed' v hopens'
        exact ⟨_, _, _, _, _, hoperand, fun _ => hbetween.clear⟩

end Reached

/-- Every placeholder stands where its value is read as an operand, or where nothing is read. -/
def Standing (ps : List Piece) : Prop := ∀ before v after, ps = before ++ Piece.value v :: after →
  Idle (blanked before) ∨ Between (blanked before) (blanked after)

/-- Every placeholder that is read stands where an operand may, or has a literal for its value. -/
def Fitting (ps : List Piece) : Prop := ∀ before v after, ps = before ++ Piece.value v :: after →
  Idle (blanked before) ∨ Opening (blanked before) ∨ Simple v.sourceChars

/-- The tokens with null for the values and those with the values: operands stand in the place of operands. -/
theorem lex_swaps (hstanding : Standing ps) (hfitting : O → Fitting ps) :
    (lex 0 none (blanked ps) = none ∧ lex 0 none (written ps) = none) ∨
    ∃ us vs, lex 0 none (blanked ps) = some us ∧ lex 0 none (written ps) = some vs ∧ Swaps true us vs ∧
      (O → Swaps true vs us) := by
  have hrun : ∀ (rest before : List Piece) (run : List Char) {place nesting last ts ts'},
      Reached O before place nesting last ts ts' → ps = before ++ run.map Piece.char ++ rest →
      (place = .operand → Clear (run ++ blanked rest)) →
      (lex 0 none (blanked ps) = none ∧ lex 0 none (written ps) = none) ∨
        ∃ us vs, lex 0 none (blanked ps) = some us ∧ lex 0 none (written ps) = some vs ∧ Swaps true us vs ∧
          (O → Swaps true vs us) := by
    intro rest
    induction rest with
    | nil =>
      intro before run place nesting last ts ts' h hps hclear
      have hadmits : place.Admits run := by
        cases place with
        | operand =>
          have hrun : Clear (run ++ []) := hclear rfl
          rwa [List.append_nil] at hrun
        | _ => trivial
      rw [List.append_nil] at hps
      rw [hps, blanked_run, written_run, h.nulls run hadmits, h.values run hadmits]
      cases lex nesting last (place.left run) with
      | none => exact .inl ⟨rfl, rfl⟩
      | some us =>
        exact .inr ⟨_, _, rfl, rfl, h.forth _ _ (Swaps.refl _ us), fun ho => h.back ho _ _ (Swaps.refl _ us)⟩
    | cons piece rest ih =>
      intro before run place nesting last ts ts' h hps hclear
      cases piece with
      | char c =>
        refine ih before (run ++ [c]) h (by simpa using hps) fun hplace => ?_
        simpa [blanked, written, Piece.blank, Piece.chars] using hclear hplace
      | value v =>
        obtain ⟨place', nesting', last', us, us', hnext, hclear'⟩ := h.step hclear (hstanding _ v rest hps)
          fun ho => hfitting ho _ v rest hps
        exact ih _ [] hnext (by simpa using hps) hclear'
  exact hrun ps [] [] (reached_start O) rfl (by rintro ⟨⟩)

/-- A text that is read with null for its values is read with the values as well, and if every placeholder that is read
stands where an operand may then also the other way round. -/
theorem parse_blanked (hstanding : Standing ps) :
    ((∃ program, Program.parse (String.ofList (blanked ps)) = .ok program) →
      ∃ program, Program.parse (String.ofList (written ps)) = .ok program) ∧
    (Fitting ps → (∃ program, Program.parse (String.ofList (written ps)) = .ok program) →
      ∃ program, Program.parse (String.ofList (blanked ps)) = .ok program) := by
  have hswap : ∀ {cs cs' us vs}, lex 0 none cs = some us → lex 0 none cs' = some vs → Swaps true us vs →
      (∃ program, Program.parse (String.ofList cs) = .ok program) →
      ∃ program, Program.parse (String.ofList cs') = .ok program := by
    rintro cs cs' us vs hus hvs hswaps ⟨program, hprogram⟩
    obtain ⟨us, hus', hscripted⟩ := parse_eq_ok_iff.1 hprogram
    cases hus.symm.trans hus'
    obtain ⟨vs, program', rfl, hscripted'⟩ := exists_script hscripted hswaps
    exact ⟨program', parse_eq_ok_iff.2 ⟨vs, hvs, hscripted'⟩⟩
  have hnone : ∀ {cs}, lex 0 none cs = none → ¬∃ program, Program.parse (String.ofList cs) = .ok program := by
    rintro cs hcs ⟨program, hprogram⟩
    obtain ⟨us, hus, _⟩ := parse_eq_ok_iff.1 hprogram
    rw [hcs] at hus
    cases hus
  rcases lex_swaps hstanding id with ⟨hnulls, hvalues⟩ | ⟨us, vs, hus, hvs, hforth, hback⟩
  · exact ⟨fun h => absurd h (hnone hnulls), fun _ h => absurd h (hnone hvalues)⟩
  · exact ⟨hswap hus hvs hforth, fun hfitting => hswap hvs hus (hback hfitting)⟩

/-! ## The check and evaluation -/

section

variable {σ : Type} (env : Setting σ) (m : Machine σ) (mode : Await.Mode) (text : String)

def sequenced : String := Await.sequence m.world.integrations mode text

def Answered : Prop :=
  ∀ name ∈ asks (declared? env m) .source (sequenced m mode text), (declared? env m name).isSome = true

def Refuses : Prop := ∃ p f, (exec (evaluate env mode text) m).1 = .error (.parse p f)

def FailsCheck : Prop := ∃ e, checkSyntax m.world.integrations mode text = .error e

end

variable {σ : Type} {env : Setting σ} {m : Machine σ} {mode : Await.Mode} {text : String}

theorem standing_blank (h : Standing (ps.map Piece.blank)) : Standing ps := by
  rintro before v after rfl
  have hblank : ∀ qs : List Piece, blanked (qs.map Piece.blank) = blanked qs := by
    intro qs
    rw [blanked, blanked, List.map_map]
    exact congrArg written (List.map_congr_left fun piece _ => by cases piece <;> rfl)
  have hstands := h (before.map Piece.blank) .null (after.map Piece.blank) (by simp [Piece.blank])
  rwa [hblank, hblank] at hstands

theorem failsCheck_iff (hps : pieces (fun _ => some .null) (sequenced m mode text) = .ok ps) :
    FailsCheck m mode text ↔ ¬∃ program, Program.parse (String.ofList (written ps)) = .ok program := by
  rw [FailsCheck, checkSyntax, ← sequenced, expand_eq, hps]
  change (∃ e, Program.parse (String.ofList (written ps)) >>= _ = .error e) ↔ _
  cases Program.parse (String.ofList (written ps)) with
  | error e => exact ⟨fun _ => by rintro ⟨_, ⟨⟩⟩, fun _ => ⟨e, rfl⟩⟩
  | ok program => exact ⟨by rintro ⟨_, ⟨⟩⟩, fun h => absurd ⟨program, rfl⟩ h⟩

theorem refuses_iff (hps : pieces (declared? env m) (sequenced m mode text) = .ok ps) :
    Refuses env m mode text ↔ ¬∃ program, Program.parse (String.ofList (written ps)) = .ok program := by
  have hexpand : expand (known env.declared m.values) .source (m.world.sequence mode text).1 =
      .ok (String.ofList (written ps)) := by
    rw [sequence_fst]
    exact (expand_eq _).trans (congrArg (Except.map _) hps)
  rw [Refuses, exec_evaluate, hexpand]
  simp only [exec_bind, exec_mk_pure]
  cases hparse : Program.parse (String.ofList (written ps)) with
  | error e =>
    obtain ⟨p, f, rfl⟩ := faulty_parse _ e hparse
    exact ⟨fun _ => by rintro ⟨_, ⟨⟩⟩, fun _ => ⟨p, f, rfl⟩⟩
  | ok program =>
    refine ⟨?_, fun h => absurd ⟨program, rfl⟩ h⟩
    rintro ⟨p, f, h⟩
    exact absurd h (run_legible env .null program _ p f)

/-- A text whose names are declared falls into pieces both for the check and for evaluation. If the same braces are
placeholders in both, and every placeholder stands where its value is read as an operand of its own or where nothing is
read, then a text that passes the check is not refused, whatever the values are. If moreover every placeholder that is
read stands where an operand may, or its value is written as a literal, then the check fails exactly for the texts that
are refused. -/
theorem checkSyntax_evaluate (env : Setting σ) (m : Machine σ) (mode : Await.Mode) (text : String)
    (hanswered : Answered env m mode text) :
    ∃ qs ps, pieces (fun _ => some .null) (sequenced m mode text) = .ok qs ∧
      pieces (declared? env m) (sequenced m mode text) = .ok ps ∧
      (ps.map Piece.blank = qs → Standing qs → (Refuses env m mode text → FailsCheck m mode text) ∧
        (Fitting ps → (FailsCheck m mode text ↔ Refuses env m mode text))) := by
  obtain ⟨ps, hps⟩ := exists_piecesFrom hanswered
  obtain ⟨qs, hqs⟩ : ∃ qs, pieces (fun _ => some .null) (sequenced m mode text) = .ok qs :=
    exists_piecesFrom fun _ _ => rfl
  refine ⟨qs, ps, hqs, hps, ?_⟩
  rintro rfl hstanding
  obtain ⟨hforth, hback⟩ := parse_blanked (standing_blank hstanding)
  have hfails : _ ↔ ¬∃ program, Program.parse (String.ofList (blanked ps)) = .ok program := failsCheck_iff hqs
  have hrefuses := refuses_iff hps
  have hsound : Refuses env m mode text → FailsCheck m mode text := fun h =>
    hfails.2 fun hnulls => hrefuses.1 h (hforth hnulls)
  exact ⟨hsound, fun hfitting => ⟨fun h => hrefuses.2 fun hvalues => hfails.1 h (hback hfitting hvalues), hsound⟩⟩

theorem answered_of_asks {name : String} (hasks : asks (declared? env m) .source (sequenced m mode text) = [name])
    (hname : (declared? env m name).isSome = true) : Answered env m mode text := by
  rw [Answered, hasks]
  exact List.forall_mem_singleton.2 hname

def lettered : Machine Unit := holding (.string "b")

def listed : Machine Unit := holding (.array [.string "b"])

theorem checkSyntax_evaluate_sign : Answered ⟨.empty, ∅⟩ lettered .expression "-\x7bx\x7d" ∧
    (FailsCheck lettered .expression "-\x7bx\x7d" ↔ Refuses ⟨.empty, ∅⟩ lettered .expression "-\x7bx\x7d") := by
  have hasks : asks (declared? ⟨.empty, ∅⟩ lettered) .source (sequenced lettered .expression "-\x7bx\x7d") = ["x"] := by
    cbv
  have hanswered := answered_of_asks hasks (by cbv)
  have hnulls : pieces (fun _ => some .null) (sequenced lettered .expression "-\x7bx\x7d") =
    .ok [.char '-', .value .null] := by cbv
  have hvalues : pieces (declared? ⟨.empty, ∅⟩ lettered) (sequenced lettered .expression "-\x7bx\x7d") =
    .ok [.char '-', .value (.string "b")] := by cbv
  have hlexed : lex 0 none ['-'] = some [.minus, .eof] := by cbv
  have hsplit : ∀ {a v : Value} {before after : List Piece}, [.char '-', .value a] = before ++ Piece.value v :: after →
      before = [.char '-'] ∧ a = v ∧ after = [] := by
    intro a v before after heq
    rcases before with _ | ⟨_, _ | ⟨_, before⟩⟩
    · cases heq
    · cases heq
      exact ⟨rfl, rfl, rfl⟩
    · simp at heq
  obtain ⟨qs, ps, hqs, hps, h⟩ := checkSyntax_evaluate ⟨.empty, ∅⟩ lettered .expression "-\x7bx\x7d" hanswered
  cases hqs.symm.trans hnulls
  cases hps.symm.trans hvalues
  refine ⟨hanswered, (h rfl ?_).2 ?_⟩
  · intro before v after heq
    obtain ⟨rfl, rfl, rfl⟩ := hsplit heq
    exact .inr ⟨Option.isSome_iff_exists.2 ⟨_, hlexed⟩, by rintro c ⟨⟩; decide, rfl, rfl⟩
  · intro before v after heq
    obtain ⟨rfl, rfl, rfl⟩ := hsplit heq
    refine .inr (.inl fun us hus => ?_)
    cases List.append_cancel_right (Option.some.inj (hlexed.symm.trans hus) : [Token.minus] ++ [.eof] = us ++ [.eof])
    rfl

/-- A value may be read together with the name in front of it, a list behind a text is an index into it, and the
brackets of a list may end an index too early. -/
theorem checkSyntax_evaluate_glued :
    (Answered ⟨.empty, ∅⟩ lettered .expression "a\x7bx\x7d" ∧
      Refuses ⟨.empty, ∅⟩ lettered .expression "a\x7bx\x7d" ∧ ¬FailsCheck lettered .expression "a\x7bx\x7d") ∧
    (Answered ⟨.empty, ∅⟩ listed .expression "'a' \x7bx\x7d" ∧
      ¬Refuses ⟨.empty, ∅⟩ listed .expression "'a' \x7bx\x7d" ∧ FailsCheck listed .expression "'a' \x7bx\x7d") ∧
    (Answered ⟨.empty, ∅⟩ listed .expression "\x7bx[\x7bx\x7d]\x7d" ∧
      Refuses ⟨.empty, ∅⟩ listed .expression "\x7bx[\x7bx\x7d]\x7d" ∧
      ¬FailsCheck listed .expression "\x7bx[\x7bx\x7d]\x7d") := by
  refine ⟨⟨?_, ?_, ?_⟩, ⟨?_, ?_, ?_⟩, ⟨?_, ?_, ?_⟩⟩
  · have hasks : asks (declared? ⟨.empty, ∅⟩ lettered) .source (sequenced lettered .expression "a\x7bx\x7d") =
      ["x"] := by cbv
    exact answered_of_asks hasks (by cbv)
  · have hvalues : pieces (declared? ⟨.empty, ∅⟩ lettered) (sequenced lettered .expression "a\x7bx\x7d") =
      .ok [.char 'a', .value (.string "b")] := by cbv
    have hparse : Program.parse (String.ofList (written [.char 'a', .value (.string "b")])) =
      .error (.parse ⟨1, 2⟩ (.expectedSeparator (.string "b"))) := by cbv
    rw [refuses_iff hvalues, hparse]
    rintro ⟨_, ⟨⟩⟩
  · have hpasses : checkSyntax lettered.world.integrations .expression "a\x7bx\x7d" = .ok () := by cbv
    rw [FailsCheck, hpasses]
    rintro ⟨_, ⟨⟩⟩
  · have hasks : asks (declared? ⟨.empty, ∅⟩ listed) .source (sequenced listed .expression "'a' \x7bx\x7d") =
      ["x"] := by cbv
    exact answered_of_asks hasks (by cbv)
  · have hvalues : pieces (declared? ⟨.empty, ∅⟩ listed) (sequenced listed .expression "'a' \x7bx\x7d") =
      .ok ("'a' ".toList.map Piece.char ++ [Piece.value (.array [.string "b"])]) := by cbv
    have hparse : Program.parse (String.ofList (written ("'a' ".toList.map Piece.char ++
      [.value (.array [.string "b"])]))) = .ok [.expr (.index (.string "a") (.string "b"))] := by cbv
    rw [refuses_iff hvalues, not_not]
    exact ⟨_, hparse⟩
  · have hfails : checkSyntax listed.world.integrations .expression "'a' \x7bx\x7d" =
      .error (.parse ⟨1, 5⟩ (.expectedSeparator .nullWord)) := by cbv
    exact ⟨_, hfails⟩
  · have hasks : asks (declared? ⟨.empty, ∅⟩ listed) .source (sequenced listed .expression "\x7bx[\x7bx\x7d]\x7d") =
      ["x"] := by cbv
    exact answered_of_asks hasks (by cbv)
  · have hvalues : pieces (declared? ⟨.empty, ∅⟩ listed) (sequenced listed .expression "\x7bx[\x7bx\x7d]\x7d") =
      .ok ("\x7bx[".toList.map Piece.char ++ .value (.array [.string "b"]) :: "]\x7d".toList.map Piece.char) := by cbv
    have hparse : Program.parse (String.ofList (written ("\x7bx[".toList.map Piece.char ++
      .value (.array [.string "b"]) :: "]\x7d".toList.map Piece.char))) =
      .error (.parse ⟨1, 2⟩ (.strayCharacter '\x7b')) := by cbv
    rw [refuses_iff hvalues, hparse]
    rintro ⟨_, ⟨⟩⟩
  · have hpasses : checkSyntax listed.world.integrations .expression "\x7bx[\x7bx\x7d]\x7d" = .ok () := by cbv
    rw [FailsCheck, hpasses]
    rintro ⟨_, ⟨⟩⟩

end LiveSheet.Eval
