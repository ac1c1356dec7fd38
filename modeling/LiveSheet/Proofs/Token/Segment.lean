import LiveSheet.Proofs.Await.Source
import LiveSheet.Proofs.Token.Place

/-! Strings and templates as the lexer takes them apart: into characters, plain or behind a backslash, and, in a
template, the code of its interpolations. Reading goes both ways: what is read has this form, and whatever has it is
read. Only an escaped line end does not move the place to the next line. -/

namespace LiveSheet

namespace Await.Glyph

/-- The characters by which places behind the glyph are counted: an escaped line end is passed over. -/
def counted : Glyph → List Char
  | plain c => [c]
  | escaped c => if c = '\n' then ['\\'] else ['\\', c]

end Await.Glyph

namespace Token

open Await (Glyph spell openBraces)

theorem put_ok (text : List Char) (x : Stretch) : put text (.ok x) = .ok { x with text := text ++ x.text } := rfl

theorem put_put (xs ys : List Char) (r : Except SheetError Stretch) : put xs (put ys r) = put (xs ++ ys) r := by
  cases r with
  | error e => rfl
  | ok x => simp [put_ok]

theorem through_escaped (p : Position) (c : Char) : p.through (Glyph.escaped c).counted = (p.right 1).after c := by
  by_cases hc : c = '\n' <;> simp [Glyph.counted, Position.after, Position.past, hc]

/-! ## Strings -/

theorem stringText_spell {quote : Char} (hquote : quote = '"' ∨ quote = '\'') {body : List Glyph}
    (hbody : ∀ g ∈ body, g.Inside quote) (next : List Char) (p : Position) :
    stringText quote (spell body ++ quote :: next) p =
      .ok ⟨body.map Glyph.value, next, (p.through (body.flatMap Glyph.counted)).right 1⟩ := by
  have hline : quote ≠ '\n' ∧ quote ≠ '\\' := by rcases hquote with rfl | rfl <;> decide
  induction body generalizing p with
  | nil =>
    rw [spell, List.flatMap_nil, List.nil_append, stringText.eq_def]
    simp only [if_neg hline.1, if_true, List.map_nil, List.flatMap_nil, Position.through_nil]
  | cons g body ih =>
    have hrest := ih fun g' hg' => hbody g' (List.mem_cons_of_mem g hg')
    rw [List.flatMap_cons, Position.through_append]
    cases g with
    | plain c =>
      obtain ⟨hc, hbackslash, hnewline⟩ := hbody _ List.mem_cons_self
      change stringText quote (c :: (spell body ++ quote :: next)) p = _
      rw [stringText.eq_def]
      simp only [if_neg hnewline, if_neg hc, if_neg hbackslash, hrest, put_ok]
      simp [Glyph.counted, Glyph.value, Position.past_of_ne hnewline]
    | escaped c =>
      change stringText quote ('\\' :: c :: (spell body ++ quote :: next)) p = _
      rw [stringText.eq_def]
      have hne : '\\' ≠ '\n' := by decide
      simp only [if_neg hne, if_neg (Ne.symm hline.2), if_true, hrest, put_ok, through_escaped]
      rfl

theorem read_quoted {quote : Char} (hquote : quote = '"' ∨ quote = '\'') {body : List Glyph}
    (hbody : ∀ g ∈ body, g.Inside quote) (next : List Char) (p : Position) :
    read quote (spell body ++ quote :: next) p = .ok ⟨.string (String.ofList (body.map Glyph.value)), next,
      ((p.right 1).through (body.flatMap Glyph.counted)).right 1⟩ := by
  have hread : read quote (spell body ++ quote :: next) p = readString quote (spell body ++ quote :: next) p := by
    rcases hquote with rfl | rfl <;> rfl
  rw [hread, readString, stringText_spell hquote hbody]
  rfl

theorem stringText_eq_ok {quote : Char} {cs : List Char} {p : Position} {x : Stretch}
    (h : stringText quote cs p = .ok x) : ∃ body, (∀ g ∈ body, g.Inside quote) ∧ cs = spell body ++ quote :: x.rest := by
  fun_induction stringText quote cs p generalizing x with
  | case1 => cases h
  | case2 => cases h
  | case3 rest p hline =>
    cases h
    exact ⟨[], List.forall_mem_nil _, rfl⟩
  | case4 => cases h
  | case5 p e rest _ _ ih =>
    obtain ⟨y, hy, rfl⟩ := exists_of_map h
    obtain ⟨body, hbody, rfl⟩ := ih hy
    exact ⟨.escaped e :: body, List.forall_mem_cons.2 ⟨trivial, hbody⟩, rfl⟩
  | case6 c rest p hline hquote hslash ih =>
    obtain ⟨y, hy, rfl⟩ := exists_of_map h
    obtain ⟨body, hbody, rfl⟩ := ih hy
    exact ⟨.plain c :: body, List.forall_mem_cons.2 ⟨⟨hquote, hslash, hline⟩, hbody⟩, rfl⟩

theorem spell_unique {quote : Char} {body body' : List Glyph} (hbody : ∀ g ∈ body, g.Inside quote)
    (hbody' : ∀ g ∈ body', g.Inside quote) (heq : spell body = spell body') : body = body' := by
  induction body generalizing body' with
  | nil =>
    rcases body' with _ | ⟨_ | _, _⟩
    · rfl
    · cases heq
    · cases heq
  | cons g body ih =>
    obtain ⟨hg, hrest⟩ := List.forall_mem_cons.1 hbody
    rcases body' with _ | ⟨g', body'⟩
    · cases g <;> cases heq
    · obtain ⟨hg', hrest'⟩ := List.forall_mem_cons.1 hbody'
      rcases g with c | c <;> rcases g' with c' | c'
      · obtain ⟨rfl, htail⟩ := List.cons.inj heq
        rw [ih hrest hrest' htail]
      · exact absurd (List.cons.inj heq).1 hg.2.1
      · exact absurd (List.cons.inj heq).1.symm hg'.2.1
      · obtain ⟨rfl, htail⟩ := List.cons.inj (List.cons.inj heq).2
        rw [ih hrest hrest' htail]

/-! ## Templates -/

/-- A character of a template, or an interpolation with its code. -/
inductive Segment where
  | text (g : Glyph)
  | code (inner : List Char)

namespace Segment

def chars : Segment → List Char
  | text g => g.chars
  | code inner => '$' :: '\x7b' :: (inner ++ ['\x7d'])

def raw : Segment → List Char
  | text g => g.raw
  | code inner => '$' :: '\x7b' :: (inner ++ ['\x7d'])

/-- The characters by which places behind the segment are counted. -/
def counted : Segment → List Char
  | text g => g.counted
  | code inner => '$' :: '\x7b' :: (inner ++ ['\x7d'])

end Segment

/-- How the characters of a template up to its backtick are taken apart. A dollar and a brace open code if no
backslash is in front of either, and code runs up to the brace that balances its own. -/
inductive Segmented : List Char → List Segment → List Char → Prop where
  | done (left : List Char) : Segmented ('\x60' :: left) [] left
  | plain {c : Char} {rest body left} (htick : c ≠ '\x60') (hslash : c ≠ '\\')
      (hopen : c = '$' → rest.head? ≠ some '\x7b') (h : Segmented rest body left) :
      Segmented (c :: rest) (.text (.plain c) :: body) left
  | escaped (c : Char) {rest body left} (h : Segmented rest body left) :
      Segmented ('\\' :: c :: rest) (.text (.escaped c) :: body) left
  | code {inner cs rest body left} (hcs : cs = inner ++ '\x7d' :: rest) (hinner : openBraces 1 inner = some 1)
      (h : Segmented rest body left) : Segmented ('$' :: '\x7b' :: cs) (.code inner :: body) left

theorem templateText_escaped (c : Char) (rest : List Char) (p : Position) : templateText 0 ('\\' :: c :: rest) p =
    put (rawEscape c) (templateText 0 rest (p.through (Glyph.escaped c).counted)) := by
  rw [through_escaped, templateText.eq_def]
  rfl

theorem templateText_open (rest : List Char) (p : Position) :
    templateText 0 ('$' :: '\x7b' :: rest) p = put ['$', '\x7b'] (templateText 1 rest (p.right 2)) := by
  rw [templateText.eq_def]
  rfl

theorem templateText_plain {c : Char} {rest : List Char} (htick : c ≠ '\x60') (hslash : c ≠ '\\')
    (hopen : c = '$' → rest.head? ≠ some '\x7b') (p : Position) :
    templateText 0 (c :: rest) p = put [c] (templateText 0 rest (p.past c)) := by
  rw [templateText.eq_def]
  simp only [ne_eq, not_true_eq_false, if_false, if_neg htick, if_neg hslash]
  split
  · next hc =>
    subst hc
    split
    · exact absurd rfl (hopen rfl)
    · rfl
  · rfl

theorem templateText_code {depth : Nat} {code : List Char} (hdepth : depth ≠ 0)
    (h : openBraces depth code = some 1) (next : List Char) (p : Position) :
    templateText depth (code ++ '\x7d' :: next) p =
      put (code ++ ['\x7d']) (templateText 0 next (p.through (code ++ ['\x7d']))) := by
  induction code generalizing depth p with
  | nil =>
    obtain rfl : depth = 1 := Option.some.inj h
    rw [List.nil_append, List.nil_append, templateText.eq_def]
    rfl
  | cons c code ih =>
    rw [openBraces] at h
    split at h
    · cases h
    · next hne =>
      rw [List.cons_append, templateText.eq_def]
      simp only [ne_eq, hdepth, not_false_eq_true, if_true, ih hne h, put_put]
      rfl

theorem openBraces_inj {depth : Nat} {inner inner' rest rest' : List Char} (h : openBraces depth inner = some 1)
    (h' : openBraces depth inner' = some 1) (heq : inner ++ '\x7d' :: rest = inner' ++ '\x7d' :: rest') :
    inner = inner' ∧ rest = rest' := by
  induction inner generalizing depth inner' with
  | nil =>
    obtain rfl : depth = 1 := Option.some.inj h
    cases inner' with
    | nil => exact ⟨rfl, (List.cons.inj heq).2⟩
    | cons c inner' =>
      obtain ⟨rfl, _⟩ := List.cons.inj heq
      cases h'
  | cons c inner ih =>
    cases inner' with
    | nil =>
      obtain rfl : depth = 1 := Option.some.inj h'
      obtain ⟨rfl, _⟩ := List.cons.inj heq
      cases h
    | cons c' inner' =>
      obtain ⟨rfl, heqTail⟩ := List.cons.inj heq
      rw [openBraces] at h h'
      split at h
      · cases h
      · next hne =>
        rw [if_neg hne] at h'
        obtain ⟨rfl, rfl⟩ := ih h h' heqTail
        exact ⟨rfl, rfl⟩

namespace Segmented

variable {cs left : List Char} {body : List Segment}

theorem eq (h : Segmented cs body left) : cs = body.flatMap Segment.chars ++ '\x60' :: left := by
  induction h with
  | done => rfl
  | plain _ _ _ _ ih => simpa [Segment.chars, Glyph.chars] using ih
  | escaped _ _ ih => simpa [Segment.chars, Glyph.chars] using ih
  | code hcs _ _ ih => simp [Segment.chars, hcs, ih]

theorem replace (h : Segmented cs body left) (left' : List Char) :
    Segmented (body.flatMap Segment.chars ++ '\x60' :: left') body left' := by
  induction h with
  | done => exact .done left'
  | @plain c rest body left htick hslash hopen h ih =>
    have hsame : ∀ xs : List Char, (xs ++ '\x60' :: left).head? = (xs ++ '\x60' :: left').head? := by
      rintro (_ | _) <;> rfl
    refine .plain htick hslash (fun hc hhead => hopen hc ?_) ih
    rw [h.eq, hsame]
    exact hhead
  | escaped c _ ih => exact .escaped c ih
  | @code inner cs rest body left _ hinner _ ih =>
    have heq : (Segment.code inner :: body).flatMap Segment.chars ++ '\x60' :: left' =
        '$' :: '\x7b' :: (inner ++ '\x7d' :: (body.flatMap Segment.chars ++ '\x60' :: left')) := by
      simp [Segment.chars]
    rw [heq]
    exact .code rfl hinner ih

theorem head_of_plain (h : Segmented cs body left) {c : Char} (hc : body.head? = some (.text (.plain c))) :
    cs.head? = some c := by
  cases h with
  | plain => simpa using hc
  | _ => simp at hc

theorem of_escaped (h : Segmented cs body left) {c : Char} (hc : body.head? = some (.text (.escaped c))) :
    ∃ rest, cs = '\\' :: c :: rest := by
  cases h with
  | escaped c' =>
    cases hc
    exact ⟨_, rfl⟩
  | _ => simp at hc

theorem unique (h : Segmented cs body left) {body' : List Segment} {left' : List Char} (h' : Segmented cs body' left') :
    body = body' := by
  induction h generalizing body' with
  | done =>
    cases h' with
    | done => rfl
    | plain htick => exact absurd rfl htick
  | plain htick hslash hopen _ ih =>
    cases h' with
    | done => exact absurd rfl htick
    | plain _ _ _ h' => rw [ih h']
    | escaped => exact absurd rfl hslash
    | code => exact absurd rfl (hopen rfl)
  | escaped c _ ih =>
    cases h' with
    | plain _ hslash => exact absurd rfl hslash
    | escaped _ h' => rw [ih h']
  | code hcs hinner _ ih =>
    cases h' with
    | plain _ _ hopen => exact absurd rfl (hopen rfl)
    | code hcs' hinner' h' =>
      obtain ⟨rfl, rfl⟩ := openBraces_inj hinner hinner' (hcs.symm.trans hcs')
      rw [ih h']

theorem templateText (h : Segmented cs body left) (p : Position) : Token.templateText 0 cs p =
    .ok ⟨body.flatMap Segment.raw, left, (p.through (body.flatMap Segment.counted)).right 1⟩ := by
  induction h generalizing p with
  | done left =>
    rw [templateText.eq_def]
    rfl
  | plain htick hslash hopen _ ih =>
    rw [templateText_plain htick hslash hopen, ih]
    rfl
  | escaped c _ ih =>
    rw [templateText_escaped, ih, List.flatMap_cons, List.flatMap_cons, Position.through_append]
    rfl
  | code hcs hinner _ ih =>
    rw [hcs, templateText_open, templateText_code Nat.one_ne_zero hinner, ih, put_put, put_ok]
    simp [Segment.raw, Segment.counted, Position.past]

theorem read (h : Segmented cs body left) (p : Position) : Token.read '\x60' cs p =
    .ok ⟨.template (String.ofList (body.flatMap Segment.raw)), left,
      ((p.right 1).through (body.flatMap Segment.counted)).right 1⟩ := by
  change readTemplate cs p = _
  rw [readTemplate, h.templateText]
  rfl

end Segmented

theorem templateText_eq_ok {cs : List Char} {p : Position} {x : Stretch} (h : templateText 0 cs p = .ok x) :
    cs = '\x60' :: x.rest ∨
    (∃ e rest q y, cs = '\\' :: e :: rest ∧ templateText 0 rest q = .ok y ∧ x.rest = y.rest) ∨
    (∃ rest q y, cs = '$' :: '\x7b' :: rest ∧ templateText 1 rest q = .ok y ∧ x.rest = y.rest) ∨
    ∃ c rest q y, cs = c :: rest ∧ c ≠ '\x60' ∧ c ≠ '\\' ∧ (c = '$' → rest.head? ≠ some '\x7b') ∧
      templateText 0 rest q = .ok y ∧ x.rest = y.rest := by
  rw [templateText.eq_def] at h
  simp only [ne_eq, not_true, if_false] at h
  split at h
  · cases h
  · split at h
    · next hc =>
      cases h
      exact .inl (by rw [hc])
    · next htick =>
      split at h
      · next hc =>
        split at h
        · cases h
        · next e rest =>
          obtain ⟨y, hy, rfl⟩ := exists_of_map h
          exact .inr (.inl ⟨e, rest, _, y, by rw [hc], hy, rfl⟩)
      · next hslash =>
        split at h
        · next hc =>
          split at h
          · next rest =>
            obtain ⟨y, hy, rfl⟩ := exists_of_map h
            exact .inr (.inr (.inl ⟨rest, _, y, by rw [hc], hy, rfl⟩))
          · next left hleft =>
            obtain ⟨y, hy, rfl⟩ := exists_of_map h
            refine .inr (.inr (.inr ⟨_, _, _, y, rfl, htick, hslash, fun _ hhead => ?_, hy, rfl⟩))
            obtain ⟨rest', hrest⟩ := List.head?_eq_some_iff.1 hhead
            exact hleft rest' hrest
        · next hdollar =>
          obtain ⟨y, hy, rfl⟩ := exists_of_map h
          exact .inr (.inr (.inr ⟨_, _, _, y, rfl, htick, hslash, fun hc => absurd hc hdollar, hy, rfl⟩))

theorem templateText_balanced {depth : Nat} {cs : List Char} {p : Position} {x : Stretch} (hdepth : depth ≠ 0)
    (h : templateText depth cs p = .ok x) : ∃ body next q y, cs = body ++ '\x7d' :: next ∧
      openBraces depth body = some 1 ∧ templateText 0 next q = .ok y ∧ x.rest = y.rest := by
  induction cs generalizing depth p x with
  | nil => cases h
  | cons c cs ih =>
    rw [templateText.eq_def] at h
    simp only [ne_eq, hdepth, not_false_iff, if_true] at h
    obtain ⟨y, hy, rfl⟩ := exists_of_map h
    by_cases hclosed : Text.depthAfter depth c = 0
    · have hc : c = '\x7d' ∧ depth = 1 := by
        unfold Text.depthAfter at hclosed
        split at hclosed
        · omega
        · split at hclosed
          · exact ⟨‹_›, by omega⟩
          · exact absurd hclosed hdepth
      obtain ⟨rfl, rfl⟩ := hc
      exact ⟨[], cs, _, y, rfl, rfl, hclosed ▸ hy, rfl⟩
    · obtain ⟨body, next, q, z, rfl, hopen, hz, hrest⟩ := ih hclosed hy
      refine ⟨c :: body, next, q, z, rfl, ?_, hz, hrest⟩
      rw [openBraces, if_neg hclosed, hopen]

theorem exists_segmented {cs : List Char} {p : Position} {x : Stretch} (h : templateText 0 cs p = .ok x) :
    ∃ body, Segmented cs body x.rest := by
  induction hn : cs.length using Nat.strongRecOn generalizing cs p x with
  | ind n ih =>
    subst hn
    rcases templateText_eq_ok h with rfl | ⟨e, rest, q, y, rfl, hy, hrest⟩ | ⟨rest, q, y, rfl, hy, hrest⟩ |
      ⟨c, rest, q, y, rfl, htick, hslash, hopen, hy, hrest⟩
    · exact ⟨[], .done x.rest⟩
    · obtain ⟨body, hbody⟩ := ih rest.length (by grind) hy rfl
      rw [hrest]
      exact ⟨_, .escaped e hbody⟩
    · obtain ⟨inner, next, q', z, rfl, hinner, hz, hrest'⟩ := templateText_balanced Nat.one_ne_zero hy
      obtain ⟨body, hbody⟩ := ih next.length (by grind) hz rfl
      rw [hrest, hrest']
      exact ⟨_, .code rfl hinner hbody⟩
    · obtain ⟨body, hbody⟩ := ih rest.length (by grind) hy rfl
      rw [hrest]
      exact ⟨_, .plain htick hslash hopen hbody⟩

end Token

end LiveSheet
