import Mathlib.Logic.ExistsUnique
import LiveSheet.Expr.Template
import LiveSheet.Proofs.Token.Segment

/-! Where a template is code is decided twice: by the lexer in the source, and by the reader of the raw text that the
lexer keeps. The two agree unless the source has a dollar right before an escaped brace. -/

namespace LiveSheet.Template

open Token (Segment Segmented)
open Await (Glyph openBraces)

/-! ## Raw text, character by character -/

theorem pieces_plain {c : Char} {cs : List Char} (hslash : c ≠ '\\') (hcode : c = '$' → cs.head? ≠ some '\x7b')
    (column start : Nat) : pieces 0 column start (c :: cs) = addText c (pieces 0 (column + 1) 0 cs) := by
  rw [pieces.eq_def]
  simp only [ne_eq, not_true, if_false, if_neg hslash]
  split
  · next hc =>
    split
    · exact absurd rfl (hcode hc)
    · rfl
  · rfl

theorem pieces_escaped (c : Char) (cs : List Char) (column start : Nat) :
    pieces 0 column start ('\\' :: c :: cs) = addText c (pieces 0 (column + 2) 0 cs) := by
  rw [pieces.eq_def]
  rfl

theorem pieces_open (cs : List Char) (column start : Nat) :
    pieces 0 column start ('$' :: '\x7b' :: cs) = pieces 1 (column + 2) column cs := by
  rw [pieces.eq_def]
  rfl

theorem pieces_rawEscape (c : Char) (cs : List Char) (column start : Nat) : ∃ column',
    pieces 0 column start (Token.rawEscape c ++ cs) = addText (Token.unescape c) (pieces 0 column' 0 cs) := by
  rw [Token.rawEscape]
  split
  · exact ⟨_, pieces_escaped _ _ _ _⟩
  · next hc =>
    simp only [not_or] at hc
    exact ⟨_, pieces_plain hc.2.2 (fun heq => absurd heq hc.1) _ _⟩

theorem head_rawEscape (c : Char) (cs : List Char) : (Token.rawEscape c ++ cs).head? = some '\x7b' ↔ c = '\x7b' := by
  have hunescape : Token.unescape c = '\x7b' ↔ c = '\x7b' := by
    unfold Token.unescape
    split
    · next hc => simp [hc]
    · split
      · next hc => simp [hc]
      · split
        · next hc => simp [hc]
        · split
          · next hc => simp [hc]
          · rfl
  rw [Token.rawEscape]
  split
  · next hc =>
    have hne : Token.unescape c ≠ '\x7b' := by
      rcases hc with hc | hc | hc <;> rw [hc] <;> decide
    simpa using fun hc => hne (hunescape.2 hc)
  · simpa using hunescape

theorem pieces_balanced {inner : List Char} (cs : List Char) : ∀ {depth : Nat}, depth ≠ 0 → openBraces depth inner = some 1 →
    ∀ column start, ∃ column', pieces depth column start (inner ++ '\x7d' :: cs) = .code (.ok inner) :: pieces 0 column' 0 cs := by
  induction inner with
  | nil =>
    intro depth hdepth hopen column start
    obtain rfl : depth = 1 := Option.some.inj hopen
    rw [List.nil_append, pieces.eq_def]
    simp only [ne_eq, hdepth, not_false_iff, if_true]
    rw [show Text.depthAfter 1 '\x7d' = 0 from rfl, if_pos rfl]
    exact ⟨_, rfl⟩
  | cons c inner ih =>
    intro depth hdepth hopen column start
    rw [openBraces] at hopen
    split at hopen
    · cases hopen
    · next hne =>
      obtain ⟨column', hrest⟩ := ih hne hopen (column + 1) start
      rw [List.cons_append, pieces.eq_def]
      simp only [ne_eq, hdepth, not_false_iff, if_true, if_neg hne, hrest]
      exact ⟨column', rfl⟩

theorem pieces_rawCode {inner : List Char} (hinner : openBraces 1 inner = some 1) (cs : List Char) (column start : Nat) :
    ∃ column', pieces 0 column start (Segment.raw (.code inner) ++ cs) = .code (.ok inner) :: pieces 0 column' 0 cs := by
  obtain ⟨column', hpieces⟩ := pieces_balanced cs Nat.one_ne_zero hinner (column + 2) column
  refine ⟨column', ?_⟩
  rw [show Segment.raw (.code inner) ++ cs = '$' :: '\x7b' :: (inner ++ '\x7d' :: cs) by simp [Segment.raw], pieces_open,
    hpieces]

theorem pieces_opened {depth : Nat} (hdepth : depth ≠ 0) (cs : List Char) (column start : Nat) :
    ∃ body ps, pieces depth column start cs = .code body :: ps := by
  induction cs generalizing depth column with
  | nil => exact ⟨_, [], by rw [pieces.eq_def]; exact if_neg hdepth⟩
  | cons c cs ih =>
    rw [pieces.eq_def]
    simp only [ne_eq, hdepth, not_false_iff, if_true]
    split
    · exact ⟨_, _, rfl⟩
    · next hne =>
      obtain ⟨body, ps, hps⟩ := ih hne (column + 1)
      exact ⟨_, ps, by rw [hps]; rfl⟩

theorem addText_eq_cons (c : Char) (ps : List Piece) : ∃ cs qs, addText c ps = .text (c :: cs) :: qs := by
  unfold addText
  split <;> exact ⟨_, _, rfl⟩

theorem head_pieces (column start : Nat) (cs : List Char) : (pieces 0 column start cs).head? ≠ some (.text []) := by
  have hadd : ∀ c ps, (addText c ps).head? ≠ some (.text []) := by
    intro c ps
    obtain ⟨cs, qs, heq⟩ := addText_eq_cons c ps
    simp [heq]
  rw [pieces.eq_def]
  split
  · simp
  · simp only [ne_eq, not_true, if_false]
    split
    · split
      · exact hadd _ _
      · simp
    · split
      · split
        · next rest =>
          obtain ⟨body, ps, heq⟩ := pieces_opened Nat.one_ne_zero rest (column + 2) column
          simp [heq]
        · exact hadd _ _
      · exact hadd _ _

theorem addText_inj {c : Char} {ps qs : List Piece} (hps : ps.head? ≠ some (.text [])) (hqs : qs.head? ≠ some (.text [])) :
    addText c ps = addText c qs ↔ ps = qs := by
  refine ⟨fun h => ?_, congrArg _⟩
  rcases ps with _ | ⟨cs | body, ps⟩ <;> rcases qs with _ | ⟨ds | body', qs⟩ <;> simp_all [addText]

/-! ## Segments -/

/-- The pieces of a template as the lexer has it: its interpolations with their code, and between them its characters
with each escape resolved. -/
def ofSegments : List Segment → List Piece
  | [] => []
  | .text g :: body => addText g.value (ofSegments body)
  | .code inner :: body => .code (.ok inner) :: ofSegments body

/-- A dollar stands right before an escaped brace. The raw text keeps no backslash there. -/
def EscapedOpening (body : List Segment) : Prop := [.text (.plain '$'), .text (.escaped '\x7b')] <:+: body

theorem not_escapedOpening_nil : ¬EscapedOpening [] := by simp [EscapedOpening]

theorem escapedOpening_cons {s : Segment} {body : List Segment} : EscapedOpening (s :: body) ↔
    s = .text (.plain '$') ∧ body.head? = some (.text (.escaped '\x7b')) ∨ EscapedOpening body := by
  have hhead : [.text (.escaped '\x7b')] <+: body ↔ body.head? = some (.text (.escaped '\x7b')) := by
    cases body with
    | nil => simp
    | cons s body => simp [List.cons_prefix_cons, eq_comm]
  rw [EscapedOpening, List.infix_cons_iff, List.cons_prefix_cons, hhead]
  simp [EscapedOpening, eq_comm]

theorem head_ofSegments (body : List Segment) : (ofSegments body).head? ≠ some (.text []) := by
  cases body with
  | nil => simp [ofSegments]
  | cons s body =>
    cases s with
    | text g =>
      obtain ⟨cs, qs, heq⟩ := addText_eq_cons g.value (ofSegments body)
      simp [ofSegments, heq]
    | code inner => simp [ofSegments]

theorem head_raw (body : List Segment) : (body.flatMap Segment.raw).head? = some '\x7b' ↔
    body.head? = some (.text (.plain '\x7b')) ∨ body.head? = some (.text (.escaped '\x7b')) := by
  match body with
  | [] => simp
  | .text (.plain c) :: body => simp [Segment.raw, Glyph.raw]
  | .text (.escaped c) :: body => simpa [Segment.raw, Glyph.raw] using head_rawEscape c _
  | .code inner :: body => simp [Segment.raw]

/-- The raw text falls into the same pieces as the template unless a dollar stands right before an escaped brace. -/
theorem pieces_raw_iff {cs left : List Char} {body : List Segment} (h : Segmented cs body left) (column start : Nat) :
    pieces 0 column start (body.flatMap Segment.raw) = ofSegments body ↔ ¬EscapedOpening body := by
  induction h generalizing column start with
  | done =>
    rw [List.flatMap_nil, pieces.eq_def]
    simp [ofSegments, not_escapedOpening_nil]
  | @plain c rest body left htick hslash hopen hbody ih =>
    rw [escapedOpening_cons]
    change pieces 0 column start (c :: body.flatMap Segment.raw) = addText c (ofSegments body) ↔ _
    by_cases hescaped : c = '$' ∧ body.head? = some (.text (.escaped '\x7b'))
    · obtain ⟨rfl, hhead⟩ := hescaped
      obtain ⟨cs, hcs⟩ := List.head?_eq_some_iff.1 ((head_raw body).2 (.inr hhead))
      obtain ⟨code, ps, hpieces⟩ := pieces_opened Nat.one_ne_zero cs (column + 2) column
      obtain ⟨ds, qs, htext⟩ := addText_eq_cons '$' (ofSegments body)
      rw [hcs, pieces_open, hpieces, htext]
      simp [hhead]
    · have hraw : c = '$' → (body.flatMap Segment.raw).head? ≠ some '\x7b' := fun hc hhead =>
        ((head_raw body).1 hhead).elim (fun hplain => hopen hc (hbody.head_of_plain hplain))
          fun hhead => hescaped ⟨hc, hhead⟩
      rw [pieces_plain hslash hraw, addText_inj (head_pieces _ _ _) (head_ofSegments body), ih]
      simp [hescaped]
  | @escaped c rest body left _ ih =>
    obtain ⟨column', hpieces⟩ := pieces_rawEscape c (body.flatMap Segment.raw) column start
    rw [escapedOpening_cons]
    change pieces 0 column start (Token.rawEscape c ++ body.flatMap Segment.raw) = addText (Token.unescape c) _ ↔ _
    rw [hpieces, addText_inj (head_pieces _ _ _) (head_ofSegments body), ih]
    simp
  | @code inner cs rest body left _ hinner _ ih =>
    obtain ⟨column', hpieces⟩ := pieces_rawCode hinner (body.flatMap Segment.raw) column start
    rw [escapedOpening_cons, List.flatMap_cons, hpieces]
    simp [ofSegments, ih]

def readPiece (parse : List Char → Except SheetError Expr) : Piece → Except SheetError (Part Expr)
  | .text cs => .ok (.text (String.ofList cs))
  | .code body => body.bind fun cs => (parse cs).map .code

theorem parts_eq (parse : List Char → Except SheetError Expr) (raw : String) :
    parts parse raw = (pieces 0 1 0 raw.toList).mapM (readPiece parse) := rfl

theorem parts_raw (parse : List Char → Except SheetError Expr) {cs left : List Char} {body : List Segment}
    (h : Segmented cs body left) (hbody : ¬EscapedOpening body) :
    parts parse (String.ofList (body.flatMap Segment.raw)) = (ofSegments body).mapM (readPiece parse) := by
  rw [parts_eq, String.toList_ofList, (pieces_raw_iff h 1 0).2 hbody]

/-- A template token has its interpolations where the lexer found them, with the same code, and between them the
characters of the source with each escape resolved, exactly if no dollar stands right before an escaped brace. There
is one way only in which the lexer takes its text apart. -/
theorem pieces_of_read_template {cs : List Char} {p : Position} {x : Token.Lexeme} (h : Token.read '\x60' cs p = .ok x) :
    (∃! body, Segmented cs body x.rest) ∧ ∀ body, Segmented cs body x.rest → ∃ raw, x.token = .template raw ∧
      (pieces 0 1 0 raw.toList = ofSegments body ↔ ¬EscapedOpening body) ∧
      (¬EscapedOpening body → ∀ parse, parts parse raw = (ofSegments body).mapM (readPiece parse)) := by
  obtain ⟨y, hy, rfl⟩ := Token.exists_of_map h
  obtain ⟨body, hbody⟩ := Token.exists_segmented hy
  refine ⟨⟨body, hbody, fun body' hbody' => hbody'.unique hbody⟩, fun body' hbody' => ?_⟩
  obtain rfl := hbody'.unique hbody
  have hraw : y = ⟨body'.flatMap Segment.raw, y.rest, _⟩ := Except.ok.inj (hy.symm.trans (hbody.templateText _))
  refine ⟨String.ofList (body'.flatMap Segment.raw), by rw [hraw], ?_, fun hclean parse => parts_raw parse hbody hclean⟩
  rw [String.toList_ofList]
  exact pieces_raw_iff hbody 1 0

theorem pieces_of_read_template_price : Token.read '\x60' "\\$\\\x7b$\x7bx\x7d\x60".toList ⟨1, 1⟩ =
      .ok ⟨.template "\\$\x7b$\x7bx\x7d", [], ⟨1, 11⟩⟩ ∧
    pieces 0 1 0 "\\$\x7b$\x7bx\x7d".toList = [.text ['$', '\x7b'], .code (.ok ['x'])] := by
  have hread : Token.read '\x60' "\\$\\\x7b$\x7bx\x7d\x60".toList ⟨1, 1⟩ =
    .ok ⟨.template "\\$\x7b$\x7bx\x7d", [], ⟨1, 11⟩⟩ := by cbv
  have hbody : Segmented "\\$\\\x7b$\x7bx\x7d\x60".toList [.text (.escaped '$'), .text (.escaped '\x7b'), .code ['x']] [] :=
    .escaped _ (.escaped _ (.code (show ['x', '\x7d', '\x60'] = ['x'] ++ '\x7d' :: ['\x60'] from rfl) rfl (.done [])))
  obtain ⟨raw, heq, hpieces, _⟩ := (pieces_of_read_template hread).2 _ hbody
  cases heq
  exact ⟨hread, hpieces.2 (by simp [escapedOpening_cons, not_escapedOpening_nil])⟩

/-- In `$\{x}` no brace opens code, but the raw text has the interpolation of `x`. -/
theorem pieces_of_read_template_dollar : Token.read '\x60' "$\\\x7bx\x7d\x60".toList ⟨1, 1⟩ =
      .ok ⟨.template "$\x7bx\x7d", [], ⟨1, 8⟩⟩ ∧
    Segmented "$\\\x7bx\x7d\x60".toList
      [.text (.plain '$'), .text (.escaped '\x7b'), .text (.plain 'x'), .text (.plain '\x7d')] [] ∧
    ofSegments [.text (.plain '$'), .text (.escaped '\x7b'), .text (.plain 'x'), .text (.plain '\x7d')] =
      [.text "$\x7bx\x7d".toList] ∧
    pieces 0 1 0 "$\x7bx\x7d".toList = [.code (.ok ['x'])] := by
  refine ⟨by cbv, ?_, rfl, rfl⟩
  exact .plain (by decide) (by decide) (by decide) (.escaped _ (.plain (by decide) (by decide) (by decide)
    (.plain (by decide) (by decide) (by decide) (.done []))))

end LiveSheet.Template
