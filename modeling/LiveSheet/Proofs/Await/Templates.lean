import LiveSheet.Proofs.Await.Clear
import LiveSheet.Proofs.Await.Insertion
import LiveSheet.Proofs.Expr.Interpolation

/-! The raw text of a template falls into the pieces of its form. With the calls in its code awaited it
has the same text, and code that is read as the awaited expressions. -/

namespace LiveSheet.Await

open Template (Piece pieces addText addCode ofSegments EscapedOpening escapedOpening_cons not_escapedOpening_nil
  pieces_raw_iff readPiece parts_eq)

def textPieces (text : List Glyph) (tail : List Piece) : List Piece :=
  text.foldr (fun g ps => addText g.value ps) tail

def Segments.pieces : Segments → List Piece
  | .last text => textPieces text []
  | .code text inner rest => textPieces text (.code (.ok inner.chars) :: rest.pieces)

theorem ofSegments_text (text : List Glyph) (body : List Token.Segment) :
    ofSegments (text.map .text ++ body) = textPieces text (ofSegments body) := by
  induction text with
  | nil => rfl
  | cons g text ih =>
    change addText g.value (ofSegments (text.map .text ++ body)) = addText g.value (textPieces text (ofSegments body))
    rw [ih]

theorem Segments.ofSegments_list (body : Segments) : ofSegments body.list = body.pieces := by
  induction body using Segments.list.induct with
  | case1 text =>
    rw [list, ← List.append_nil (text.map _), ofSegments_text]
    rfl
  | case2 text inner rest ih => rw [list, ofSegments_text, ofSegments, ih, Segments.pieces]

theorem not_escapedOpening_text {text : List Glyph} (h : Glyph.Literal text) {body : List Token.Segment}
    (hhead : body.head? ≠ some (.text (.escaped '\x7b'))) (hbody : ¬EscapedOpening body) :
    ¬EscapedOpening (text.map .text ++ body) := by
  induction text with
  | nil => exact hbody
  | cons g text ih =>
    rw [List.map_cons, List.cons_append, escapedOpening_cons, not_or]
    cases g with
    | plain c =>
      obtain ⟨_, _, hdollar, htext⟩ := h
      refine ⟨?_, ih htext⟩
      rintro ⟨hc, hescaped⟩
      obtain rfl : c = '$' := by simpa using hc
      cases text with
      | nil => exact hhead hescaped
      | cons g text => exact (hdollar rfl).2 (by simpa using hescaped)
    | escaped c => exact ⟨by simp, ih h⟩

theorem Segments.Spells.not_escapedOpening {names : List String} : ∀ {body : Segments}, body.Spells names →
    ¬EscapedOpening body.list
  | .last text, h => by
    rw [Segments.list, ← List.append_nil (text.map _)]
    exact not_escapedOpening_text h (by simp) not_escapedOpening_nil
  | .code text inner rest, ⟨htext, _, _, hrest⟩ => by
    refine not_escapedOpening_text htext (by simp) ?_
    rw [escapedOpening_cons]
    simpa using Segments.Spells.not_escapedOpening hrest

theorem Segments.Spells.pieces_raw {names : List String} {body : Segments} (h : body.Spells names) (column start : Nat) :
    Template.pieces 0 column start body.raw = body.pieces := by
  rw [← body.flatMap_raw_list, ← body.ofSegments_list]
  exact (pieces_raw_iff (h.segmented []) column start).2 h.not_escapedOpening

/-- The second pieces are the first ones with the calls in their code awaited. -/
inductive PiecesFollow (names : List String) (parse parse' : List Char → Except SheetError Expr) :
    List Piece → List Piece → Prop where
  | nil : PiecesFollow names parse parse' [] []
  | text {cs ps ps'} (h : PiecesFollow names parse parse' ps ps') :
    PiecesFollow names parse parse' (.text cs :: ps) (.text cs :: ps')
  | code {cs cs' ps ps'} (hcode : ∀ e, parse cs = .ok e → parse' cs' = .ok (e.awaitCalls names false))
    (h : PiecesFollow names parse parse' ps ps') :
    PiecesFollow names parse parse' (.code (.ok cs) :: ps) (.code (.ok cs') :: ps')

namespace PiecesFollow

variable {names : List String} {parse parse' : List Char → Except SheetError Expr} {ps ps' : List Piece}

theorem addText (c : Char) (h : PiecesFollow names parse parse' ps ps') :
    PiecesFollow names parse parse' (Template.addText c ps) (Template.addText c ps') := by
  cases h with
  | nil => exact .text .nil
  | text h => exact .text h
  | code hcode h => exact .text (.code hcode h)

theorem textPieces (text : List Glyph) (h : PiecesFollow names parse parse' ps ps') :
    PiecesFollow names parse parse' (textPieces text ps) (textPieces text ps') := by
  induction text with
  | nil => exact h
  | cons g text ih => exact ih.addText g.value

theorem mapM_eq_ok (h : PiecesFollow names parse parse' ps ps') : ∀ {parts},
    ps.mapM (readPiece parse) = .ok parts → ps'.mapM (readPiece parse') = .ok (Expr.awaitParts names parts) := by
  induction h with
  | nil =>
    intro parts hparts
    cases hparts
    rfl
  | text h ih =>
    intro parts hparts
    rw [List.mapM_cons] at hparts ⊢
    obtain ⟨_, hpart, hparts⟩ := Parser.bind_eq_ok.1 hparts
    obtain ⟨parts, hrest, heq⟩ := Parser.bind_eq_ok.1 hparts
    cases hpart
    cases heq
    exact Parser.bind_eq_ok.2 ⟨_, rfl, Parser.bind_eq_ok.2 ⟨_, ih hrest, rfl⟩⟩
  | code hcode h ih =>
    intro parts hparts
    rw [List.mapM_cons] at hparts ⊢
    obtain ⟨_, hpart, hparts⟩ := Parser.bind_eq_ok.1 hparts
    obtain ⟨parts, hrest, heq⟩ := Parser.bind_eq_ok.1 hparts
    obtain ⟨e, he, rfl⟩ := Parser.map_eq_ok.1 hpart
    cases heq
    exact Parser.bind_eq_ok.2 ⟨_, Parser.map_eq_ok.2 ⟨_, hcode e he, rfl⟩, Parser.bind_eq_ok.2 ⟨_, ih hrest, rfl⟩⟩

end PiecesFollow

section

variable {names : List String} {parse parse' : List Char → Except SheetError Expr}
  (hparse : ∀ src : Source, src.Spells names 0 [] → src.Clear names 0 .other → src.Overt names → ∀ e,
    parse src.chars = .ok e → parse' (src.awaited false).chars = .ok (e.awaitCalls names false))

include hparse

theorem Segments.pieces_follow : ∀ {body : Segments}, body.Spells names → body.Clear names →
    PiecesFollow names parse parse' body.pieces body.awaited.pieces
  | .last text, _, _ => .textPieces text .nil
  | .code text inner _, ⟨_, hinner, _, hrest⟩, ⟨hclear, hovert, hrestClear⟩ =>
    .textPieces text (.code (hparse inner hinner hclear hovert) (Segments.pieces_follow hrest hrestClear))

theorem Segments.parts_awaited {body : Segments} (hbody : body.Spells names) (hclear : body.Clear names)
    {parts : List (Part Expr)} (h : Template.parts parse (String.ofList body.raw) = .ok parts) :
    Template.parts parse' (String.ofList body.awaited.raw) = .ok (Expr.awaitParts names parts) := by
  rw [parts_eq, String.toList_ofList, hbody.pieces_raw] at h
  rw [parts_eq, String.toList_ofList, hbody.awaited.pieces_raw]
  exact (Segments.pieces_follow hparse hbody hclear).mapM_eq_ok h

end

end LiveSheet.Await
