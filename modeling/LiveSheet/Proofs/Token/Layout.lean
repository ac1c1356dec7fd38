import LiveSheet.Proofs.Token.Lexeme

/-! A text that can be read falls into gaps, line ends and tokens. The same layout tells the tokens of the text wherever
it stands and whatever line follows it, and where each of them is found: behind the characters before it, but for the
line ends that a backslash escapes. -/

namespace LiveSheet.Token

/-- The lexer passes over the gap up to what is left of the line. -/
structure Skips (gap left : List Char) : Prop where
  inside : '\n' ∉ gap
  skip : ∀ tail, Ends tail → ∀ p, Token.skip false (gap ++ (left ++ tail)) p = (left ++ tail, p.right gap.length)

theorem Skips.unique {gap gap' left left' : List Char} (h : Skips gap left) (h' : Skips gap' left')
    (heq : gap ++ left = gap' ++ left') : gap = gap' ∧ left = left' := by
  have hskip := h.skip [] .nil ⟨1, 1⟩
  have hskip' := h'.skip [] .nil ⟨1, 1⟩
  simp only [List.append_nil] at hskip hskip'
  rw [heq, hskip'] at hskip
  obtain ⟨rfl, -⟩ := Prod.mk.inj hskip
  exact ⟨List.append_cancel_right heq, rfl⟩

theorem skip_cons {inComment : Bool} {c : Char} (hc : c ≠ '\n') (rest : List Char) (p : Position) :
    skip inComment (c :: rest) p =
      if inComment then skip true rest (p.right 1)
      else if Text.isBlank c then skip false rest (p.right 1)
      else if c = '/' ∧ rest.head? = some '/' then skip true rest (p.right 1)
      else (c :: rest, p) := by
  rw [skip, if_neg hc]

theorem exists_gap {inComment : Bool} {cs left : List Char} {p q : Position} (h : skip inComment cs p = (left, q)) :
    ∃ gap, cs = gap ++ left ∧ '\n' ∉ gap ∧ ∀ tail, Ends tail → ∀ p,
      skip inComment (gap ++ (left ++ tail)) p = (left ++ tail, p.right gap.length) := by
  have hcons : ∀ {c : Char} {gap : List Char} {b b' : Bool}, c ≠ '\n' →
      (∀ tail, Ends tail → ∀ p, skip b (c :: (gap ++ (left ++ tail))) p = skip b' (gap ++ (left ++ tail)) (p.right 1)) →
      ('\n' ∉ gap ∧ ∀ tail, Ends tail → ∀ p, skip b' (gap ++ (left ++ tail)) p = (left ++ tail, p.right gap.length)) →
      '\n' ∉ c :: gap ∧ ∀ tail, Ends tail → ∀ p, skip b (c :: gap ++ (left ++ tail)) p =
        (left ++ tail, p.right (c :: gap).length) := by
    intro c gap b b' hc hstep ⟨hline, hgap⟩
    refine ⟨by simp [Ne.symm hc, hline], fun tail htail p => ?_⟩
    rw [List.cons_append, hstep tail htail, hgap tail htail, Position.right_right, List.length_cons, Nat.add_comm]
  fun_induction skip inComment cs p with
  | case1 inComment p =>
    cases h
    refine ⟨[], rfl, List.not_mem_nil, fun tail htail p => ?_⟩
    rcases htail with rfl | ⟨rest, rfl⟩ <;> rfl
  | case2 inComment rest p =>
    cases h
    exact ⟨[], rfl, List.not_mem_nil, fun tail _ p => rfl⟩
  | case3 c rest p hc ih =>
    obtain ⟨gap, rfl, hgap⟩ := ih h
    exact ⟨c :: gap, rfl, hcons hc (fun tail _ p => by rw [skip_cons hc]; rfl) hgap⟩
  | case4 inComment c rest p hc hcode hblank ih =>
    obtain ⟨gap, rfl, hgap⟩ := ih h
    refine ⟨c :: gap, rfl, hcons hc (fun tail _ p => ?_) hgap⟩
    rw [skip_cons hc, if_neg hcode, if_pos hblank]
  | case5 inComment c rest p hc hcode hblank hcomment ih =>
    obtain ⟨gap, rfl, hgap⟩ := ih h
    refine ⟨c :: gap, rfl, hcons hc (fun tail _ p => ?_) hgap⟩
    have hcomment' : c = '/' ∧ (gap ++ (left ++ tail)).head? = some '/' := by
      rw [← List.append_assoc, List.head?_append, hcomment.2]
      exact ⟨hcomment.1, rfl⟩
    rw [skip_cons hc, if_neg hcode, if_neg hblank, if_pos hcomment']
  | case6 inComment c rest p hc hcode hblank hcomment =>
    cases h
    refine ⟨[], rfl, List.not_mem_nil, fun tail htail p => ?_⟩
    have hcomment' : ¬(c = '/' ∧ (rest ++ tail).head? = some '/') := fun h =>
      htail.head_ne (by decide) (fun hhead => hcomment ⟨h.1, hhead⟩) h.2
    rw [List.nil_append, List.cons_append, skip_cons hc, if_neg hcode, if_neg hblank, if_neg hcomment']
    rfl

theorem exists_skips {cs left : List Char} {p q : Position} (h : skip false cs p = (left, q)) :
    ∃ gap, cs = gap ++ left ∧ Skips gap left := by
  obtain ⟨gap, heq, hline, hskip⟩ := exists_gap h
  exact ⟨gap, heq, hline, hskip⟩

/-! ## Layouts -/

/-- A stretch of a text as the lexer goes over it: blanks and comments, a line end that separates statements or does
not, or a token with the characters by which the place behind it is counted. -/
inductive Chunk where
  | gap (text : List Char)
  | lineEnd (separates : Bool)
  | token (t : Token) (text counted : List Char)

namespace Chunk

def chars : Chunk → List Char
  | gap text => text
  | lineEnd _ => ['\n']
  | token _ text _ => text

def counted : Chunk → List Char
  | gap text => text
  | lineEnd _ => ['\n']
  | token _ _ counted => counted

def token? : Chunk → Option Token
  | gap _ => none
  | lineEnd separates => if separates then some newline else none
  | token t _ _ => some t

end Chunk

/-- The layout of a text, given how many brackets are open and the token before. -/
inductive Laid : Nat → Option Token → List Char → List Chunk → Prop where
  | done {nesting : Nat} {last : Option Token} {gap : List Char} (h : Skips gap []) : Laid nesting last gap [.gap gap]
  | lineEnd {nesting : Nat} {last : Option Token} {gap rest : List Char} {chunks : List Chunk} (h : Skips gap ('\n' :: rest))
      (hrest : Laid nesting (if separates nesting last then some newline else last) rest chunks) :
      Laid nesting last (gap ++ '\n' :: rest) (.gap gap :: .lineEnd (separates nesting last) :: chunks)
  | token {nesting : Nat} {last : Option Token} {gap text left counted : List Char} {c : Char} {t : Token}
      {chunks : List Chunk} (h : Skips gap (c :: (text ++ left))) (hc : c ≠ '\n') (hlexes : Lexes c text left t counted)
      (hrest : Laid (nestingAfter nesting t) (some t) left chunks) :
      Laid nesting last (gap ++ c :: (text ++ left)) (.gap gap :: .token t (c :: text) counted :: chunks)

/-- The tokens of chunks from a place on. -/
def placed (p : Position) : List Chunk → List Placed
  | [] => []
  | chunk :: chunks => (chunk.token?.map (⟨·, p⟩)).toList ++ placed (p.through chunk.counted) chunks

def tokens (chunks : List Chunk) : List Token := chunks.flatMap fun chunk => chunk.token?.toList

def nestingBehind (nesting : Nat) (ts : List Token) : Nat := ts.foldl nestingAfter nesting

/-- The last token up to the end of some. -/
def lastBehind (last : Option Token) (ts : List Token) : Option Token := ts.getLast?.or last

theorem map_token_placed (p : Position) (chunks : List Chunk) : (placed p chunks).map Placed.token = tokens chunks := by
  induction chunks generalizing p with
  | nil => rfl
  | cons chunk chunks ih =>
    rw [placed, List.map_append, ih]
    change _ = chunk.token?.toList ++ tokens chunks
    cases chunk.token? <;> rfl

theorem lastBehind_cons (last : Option Token) (t : Token) (ts : List Token) :
    lastBehind last (t :: ts) = lastBehind (some t) ts := by
  cases ts with
  | nil => rfl
  | cons t' ts => simp [lastBehind, List.getLast?_cons]

theorem map_append_append (xs ys : List Placed) (r : Except SheetError (List Placed)) :
    (r.map (ys ++ ·)).map (xs ++ ·) = r.map (xs ++ ys ++ ·) := by
  cases r with
  | error e => rfl
  | ok ts => simp [Except.map]

theorem map_nil_append (r : Except SheetError (List Placed)) : r.map ([] ++ ·) = r := by
  cases r <;> rfl

theorem scan_lineEnd {nesting : Nat} {last : Option Token} {cs rest : List Char} {p q : Position}
    (h : skip false cs p = ('\n' :: rest, q)) : scan nesting last cs p =
      (scan nesting (if separates nesting last then some newline else last) rest q.nextLine).map
        (((Chunk.lineEnd (separates nesting last)).token?.map (⟨·, q⟩)).toList ++ ·) := by
  rw [Await.scan_of_skip_newline h]
  cases separates nesting last with
  | true => rfl
  | false => exact (map_nil_append _).symm

theorem exists_laid {nesting : Nat} {last : Option Token} {cs : List Char} {p : Position} {ts : List Placed}
    (h : scan nesting last cs p = .ok ts) : ∃ chunks, Laid nesting last cs chunks := by
  induction hn : cs.length using Nat.strongRecOn generalizing nesting last cs p ts with
  | ind n ih =>
    subst hn
    rcases hskip : skip false cs p with ⟨left, q⟩
    obtain ⟨gap, rfl, hgap⟩ := exists_skips hskip
    rcases left with _ | ⟨c, rest⟩
    · rw [List.append_nil]
      exact ⟨_, .done hgap⟩
    · by_cases hc : c = '\n'
      · subst hc
        rw [scan_lineEnd hskip] at h
        obtain ⟨us, hus, _⟩ := exists_of_map h
        obtain ⟨chunks, hchunks⟩ := ih rest.length (by simp; omega) hus rfl
        exact ⟨_, .lineEnd hgap hchunks⟩
      · cases hx : read c rest q with
        | error e =>
          rw [Await.scan_of_skip_error hskip hc hx] at h
          cases h
        | ok x =>
          rw [Await.scan_of_skip_cons hskip hc hx] at h
          obtain ⟨us, hus, _⟩ := exists_of_map h
          obtain ⟨text, counted, rfl, hlexes⟩ := lexed_of_read hc hx
          obtain ⟨chunks, hchunks⟩ := ih x.rest.length (by simp; omega) hus rfl
          exact ⟨_, .token hgap hc hlexes hchunks⟩

namespace Laid

variable {nesting : Nat} {last : Option Token} {cs : List Char} {chunks : List Chunk}

theorem chars (h : Laid nesting last cs chunks) : chunks.flatMap Chunk.chars = cs := by
  induction h with
  | done => simp [Chunk.chars]
  | lineEnd _ _ ih => simp [Chunk.chars, ih]
  | token _ _ _ _ ih => simp [Chunk.chars, ih]

theorem scan (h : Laid nesting last cs chunks) {tail : List Char} (htail : Ends tail) (p : Position) :
    Token.scan nesting last (cs ++ tail) p =
      (Token.scan (nestingBehind nesting (tokens chunks)) (lastBehind last (tokens chunks)) tail
        (p.through (chunks.flatMap Chunk.counted))).map (placed p chunks ++ ·) := by
  induction h generalizing p with
  | @done nesting last gap hgap =>
    have hskip := hgap.skip tail htail p
    have hend : Token.skip false tail (p.right gap.length) = (tail, p.right gap.length) := by
      rcases htail with rfl | ⟨rest, rfl⟩ <;> rfl
    have hplace : p.through ([Chunk.gap gap].flatMap Chunk.counted) = p.right gap.length := by
      rw [← Position.through_of_not_mem hgap.inside, List.flatMap_singleton]
      rfl
    rw [List.nil_append] at hskip
    rw [Await.scan_congr (hskip.trans hend.symm), hplace]
    exact (map_nil_append _).symm
  | @lineEnd nesting last gap rest chunks hgap _ ih =>
    have hskip := hgap.skip tail htail p
    simp only [List.append_assoc, List.cons_append] at hskip ⊢
    rw [scan_lineEnd hskip, ih, map_append_append,
      ← Position.through_of_not_mem hgap.inside, List.flatMap_cons, List.flatMap_cons, Position.through_append,
      Position.through_append]
    cases separates nesting last with
    | true =>
      rw [show tokens (.gap gap :: .lineEnd true :: chunks) = newline :: tokens chunks from rfl, lastBehind_cons]
      rfl
    | false => rfl
  | @token nesting last gap text left counted c t chunks hgap hc hlexes _ ih =>
    have hskip := hgap.skip tail htail p
    simp only [List.append_assoc, List.cons_append] at hskip ⊢
    rw [Await.scan_of_skip_cons hskip hc (hlexes.read tail htail _), ih, ← Position.through_of_not_mem hgap.inside,
      List.flatMap_cons, List.flatMap_cons, Position.through_append, Position.through_append,
      show tokens (.gap gap :: .token t (c :: text) counted :: chunks) = t :: tokens chunks from rfl, lastBehind_cons]
    exact map_append_append [_] _ _

theorem scan_eq (h : Laid nesting last cs chunks) (p : Position) : Token.scan nesting last cs p =
    .ok (placed p chunks ++ [⟨.eof, p.through (chunks.flatMap Chunk.counted)⟩]) := by
  have hscan := h.scan .nil p
  have hend : ∀ nesting last q, Token.scan nesting last [] q = .ok [⟨.eof, q⟩] := fun _ _ _ => Await.scan_of_skip_nil rfl
  rwa [List.append_nil, hend] at hscan

theorem unique (h : Laid nesting last cs chunks) {cs' : List Char} {chunks' : List Chunk}
    (h' : Laid nesting last cs' chunks') (heq : cs = cs') : chunks = chunks' := by
  induction h generalizing cs' chunks' with
  | done hgap =>
    cases h' with
    | done hgap' => rw [(hgap.unique hgap' (by rw [heq])).1]
    | lineEnd hgap' => cases (hgap.unique hgap' (by simpa using heq)).2
    | token hgap' => cases (hgap.unique hgap' (by simpa using heq)).2
  | lineEnd hgap _ ih =>
    cases h' with
    | done hgap' => cases (hgap.unique hgap' (by simpa using heq)).2
    | lineEnd hgap' hrest' =>
      obtain ⟨rfl, hleft⟩ := hgap.unique hgap' heq
      rw [ih hrest' (List.cons.inj hleft).2]
    | token hgap' hc' => exact absurd (List.cons.inj (hgap.unique hgap' heq).2).1.symm hc'
  | token hgap hc hlexes _ ih =>
    cases h' with
    | done hgap' => cases (hgap.unique hgap' (by simpa using heq)).2
    | lineEnd hgap' => exact absurd (List.cons.inj (hgap.unique hgap' heq).2).1 hc
    | token hgap' _ hlexes' hrest' =>
      obtain ⟨rfl, hleft⟩ := hgap.unique hgap' heq
      obtain ⟨rfl, htail⟩ := List.cons.inj hleft
      obtain ⟨rfl, rfl, rfl, rfl⟩ := hlexes.unique hlexes' htail
      rw [ih hrest' rfl]

theorem of_fresh (h : Laid nesting last cs chunks) {last' : Option Token} (hfresh : Await.fresh last = Await.fresh last') :
    Laid nesting last' cs chunks := by
  induction h generalizing last' with
  | done hgap => exact .done hgap
  | @lineEnd nesting last gap rest chunks hgap _ ih =>
    have hsame : separates nesting last = separates nesting last' := by
      rw [Await.separates_eq, Await.separates_eq, hfresh]
    rw [hsame]
    refine .lineEnd hgap (ih ?_)
    rw [hsame]
    split
    · rfl
    · exact hfresh
  | token hgap hc hlexes hrest => exact .token hgap hc hlexes hrest

theorem eof_not_mem (h : Laid nesting last cs chunks) : .eof ∉ tokens chunks := by
  induction h with
  | done => exact List.not_mem_nil
  | @lineEnd nesting last _ _ chunks _ _ ih =>
    change .eof ∉ (Chunk.lineEnd (separates nesting last)).token?.toList ++ tokens chunks
    cases separates nesting last <;> simpa [Chunk.token?] using ih
  | @token _ _ _ _ _ _ _ t chunks _ _ hlexes _ ih =>
    change .eof ∉ t :: tokens chunks
    simpa [Ne.symm hlexes.inner.1] using ih

end Laid

end LiveSheet.Token
