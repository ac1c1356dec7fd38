import Mathlib
import LiveSheet.Proofs.Token.Layout

/-! Where the tokens of a text are said to be. A token is placed by the characters before it, of which the line ends
that a backslash escapes in a string or in the text of a template are not counted. Every other token of the text is
where it stands. -/

namespace LiveSheet.Token

open Await (Glyph spell)
open Position (Trims behind)

theorem trims_glyph (g : Glyph) : Trims g.counted g.chars := by
  cases g with
  | plain c => exact .refl _
  | escaped c =>
    by_cases hc : c = '\n'
    · subst hc
      exact ⟨by decide, rfl⟩
    · rw [Glyph.counted, if_neg hc]
      exact .refl _

theorem trims_segment (s : Segment) : Trims s.counted s.chars := by
  cases s with
  | text g => exact trims_glyph g
  | code inner => exact .refl _

theorem Spelled.trims {t : Token} {text counted : List Char} (h : Spelled t text counted) : Trims counted text := by
  cases h with
  | plain => exact .refl _
  | @quoted quote body _ _ =>
    exact (Trims.refl [quote]).append ((Trims.flatMap fun g _ => trims_glyph g).append (.refl [quote]))
  | template => exact (Trims.refl ['\x60']).append ((Trims.flatMap fun s _ => trims_segment s).append (.refl ['\x60']))

theorem Laid.spelled {nesting : Nat} {last : Option Token} {cs : List Char} {chunks : List Chunk}
    (h : Laid nesting last cs chunks) {t : Token} {text counted : List Char} (ht : .token t text counted ∈ chunks) :
    Spelled t text counted := by
  induction h with
  | done => simp at ht
  | lineEnd _ _ ih => exact ih (by simpa using ht)
  | token _ _ hlexes _ ih =>
    rcases List.mem_cons.1 ht with heq | ht
    · cases heq
    · rcases List.mem_cons.1 ht with heq | ht
      · cases heq
        exact hlexes.spelled
      · exact ih ht

theorem Laid.trims {nesting : Nat} {last : Option Token} {cs : List Char} {chunks : List Chunk}
    (h : Laid nesting last cs chunks) : ∀ chunk ∈ chunks, Trims chunk.counted chunk.chars
  | .gap _, _ | .lineEnd _, _ => .refl _
  | .token _ _ _, hchunk => (h.spelled hchunk).trims

/-- The tokens of a text, the end of the text too, each with all that stands before it. -/
def occurrences (before : List Chunk) : List Chunk → List (Token × List Chunk)
  | [] => [(.eof, before)]
  | chunk :: chunks => (chunk.token?.map (·, before)).toList ++ occurrences (before ++ [chunk]) chunks

theorem prefix_of_mem_occurrences {before chunks : List Chunk} {o : Token × List Chunk} (h : o ∈ occurrences before chunks) :
    o.2 <+: before ++ chunks := by
  induction chunks generalizing before with
  | nil =>
    obtain rfl := List.mem_singleton.1 h
    exact List.prefix_append before []
  | cons chunk chunks ih =>
    rcases List.mem_append.1 h with h | h
    · cases ht : chunk.token? with
      | none => simp [ht] at h
      | some t =>
        obtain rfl : o = (t, before) := by simpa [ht] using h
        exact List.prefix_append before _
    · simpa using ih h

theorem placed_behind (before chunks : List Chunk) :
    placed (behind (before.flatMap Chunk.counted)) chunks ++
        [⟨.eof, (behind (before.flatMap Chunk.counted)).through (chunks.flatMap Chunk.counted)⟩] =
      (occurrences before chunks).map fun o => ⟨o.1, behind (o.2.flatMap Chunk.counted)⟩ := by
  induction chunks generalizing before with
  | nil => rfl
  | cons chunk chunks ih =>
    have hnext : (behind (before.flatMap Chunk.counted)).through chunk.counted =
        behind ((before ++ [chunk]).flatMap Chunk.counted) := by
      rw [Position.through_behind, List.flatMap_append, List.flatMap_singleton]
    rw [placed, List.flatMap_cons, Position.through_append, hnext, List.append_assoc, ih, occurrences, List.map_append]
    cases chunk.token? <;> rfl

namespace Laid

variable {cs : List Char} {chunks : List Chunk}

theorem places (h : Laid 0 none cs chunks) :
    tokenize cs = .ok ((occurrences [] chunks).map fun o => ⟨o.1, behind (o.2.flatMap Chunk.counted)⟩) := by
  rw [← placed_behind]
  exact h.scan_eq ⟨1, 1⟩

theorem place_eq_iff (h : Laid 0 none cs chunks) {o : Token × List Chunk} (ho : o ∈ occurrences [] chunks) :
    behind (o.2.flatMap Chunk.counted) = behind (o.2.flatMap Chunk.chars) ↔ ∀ chunk ∈ o.2, chunk.counted = chunk.chars := by
  have htrims : ∀ chunk ∈ o.2, Trims chunk.counted chunk.chars := fun chunk hchunk =>
    h.trims chunk ((prefix_of_mem_occurrences ho).subset hchunk)
  rw [(Trims.flatMap htrims).behind_eq_iff, Trims.flatMap_eq_iff htrims]

end Laid

/-- A text that is read has one layout. Every token of it is placed by the characters that are counted before it. That
place is where the token stands exactly if no line end is left out before it, which are the escaped ones of the literals
there. -/
theorem tokenize_places {cs : List Char} {ts : List Placed} (h : tokenize cs = .ok ts) :
    (∃! chunks, Laid 0 none cs chunks) ∧ ∀ chunks, Laid 0 none cs chunks → chunks.flatMap Chunk.chars = cs ∧
      ts = ((occurrences [] chunks).map fun o => ⟨o.1, behind (o.2.flatMap Chunk.counted)⟩) ∧
      ∀ o ∈ occurrences [] chunks, (behind (o.2.flatMap Chunk.counted) = behind (o.2.flatMap Chunk.chars) ↔
        ∀ chunk ∈ o.2, chunk.counted = chunk.chars) := by
  obtain ⟨chunks, hlaid⟩ := exists_laid h
  refine ⟨⟨chunks, hlaid, fun _ hlaid' => hlaid'.unique hlaid rfl⟩, fun chunks' hlaid' => ⟨hlaid'.chars, ?_, ?_⟩⟩
  · exact Except.ok.inj (h.symm.trans hlaid'.places)
  · exact fun o ho => hlaid'.place_eq_iff ho

/-- The comment and the line ends of a text are counted like the rest of it. -/
theorem tokenize_places_sum : ∃ chunks, Laid 0 none "x // y\n\n+ 'z'".toList chunks ∧
    (occurrences [] chunks).map (fun o => (⟨o.1, behind (o.2.flatMap Chunk.counted)⟩ : Placed)) =
      [⟨.identifier "x", ⟨1, 1⟩⟩, ⟨.newline, ⟨1, 7⟩⟩, ⟨.plus, ⟨3, 1⟩⟩, ⟨.string "z", ⟨3, 3⟩⟩, ⟨.eof, ⟨3, 6⟩⟩] := by
  have htokens : tokenize "x // y\n\n+ 'z'".toList = .ok
      [⟨.identifier "x", ⟨1, 1⟩⟩, ⟨.newline, ⟨1, 7⟩⟩, ⟨.plus, ⟨3, 1⟩⟩, ⟨.string "z", ⟨3, 3⟩⟩, ⟨.eof, ⟨3, 6⟩⟩] := by cbv
  obtain ⟨⟨chunks, hlaid, -⟩, hplaces⟩ := tokenize_places htokens
  exact ⟨chunks, hlaid, (hplaces chunks hlaid).2.1.symm⟩

/-- Behind a string with an escaped line end the tokens of the second line are said to be on the first. -/
theorem tokenize_places_escaped : tokenize "'a\\\nb' c".toList =
      .ok [⟨.string "a\nb", ⟨1, 1⟩⟩, ⟨.identifier "c", ⟨1, 7⟩⟩, ⟨.eof, ⟨1, 8⟩⟩] ∧
    behind "'a\\\nb' ".toList = ⟨2, 4⟩ ∧ behind "'a\\\nb' c".toList = ⟨2, 5⟩ :=
  ⟨by cbv, by decide, by decide⟩

/-! ## Texts without a backslash before a line end -/

theorem Laid.counted_eq {nesting : Nat} {last : Option Token} {cs : List Char} {chunks : List Chunk}
    (h : Laid nesting last cs chunks) (hline : ¬['\\', '\n'] <:+: cs) : ∀ chunk ∈ chunks, chunk.counted = chunk.chars
  | .gap _, _ | .lineEnd _, _ => rfl
  | .token t text counted, hchunk => by
    have htext : text <:+: cs := by
      rw [← h.chars]
      exact List.infix_of_mem_flatten (List.mem_map_of_mem (f := Chunk.chars) hchunk)
    exact (h.spelled hchunk).counted_eq fun hmem => hline (hmem.trans htext)

/-- Without a backslash right before a line end, every token is said to be where it stands. -/
theorem tokenize_exact {cs : List Char} {ts : List Placed} (h : tokenize cs = .ok ts) (hline : ¬['\\', '\n'] <:+: cs) :
    ∃ chunks, Laid 0 none cs chunks ∧ chunks.flatMap Chunk.chars = cs ∧
      ts = (occurrences [] chunks).map fun o => ⟨o.1, behind (o.2.flatMap Chunk.chars)⟩ := by
  obtain ⟨chunks, hlaid⟩ := exists_laid h
  refine ⟨chunks, hlaid, hlaid.chars, ?_⟩
  rw [Except.ok.inj (h.symm.trans hlaid.places)]
  refine List.map_congr_left fun o ho => ?_
  rw [(hlaid.place_eq_iff ho).2 fun chunk hchunk => hlaid.counted_eq hline chunk ((prefix_of_mem_occurrences ho).subset hchunk)]

end LiveSheet.Token
