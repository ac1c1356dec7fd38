import LiveSheet.Proofs.Await.Lexing

/-! What the patterns of calls find. A match is the callee of one of the names and a parenthesis, and
where such a text stands at a word boundary it is found. A pass over a text copies it character by
character but for the calls it awaits, also where it skips a match. -/

namespace LiveSheet.Await

/-- A name that calls go by: an identifier, or one with its owner. -/
def Callable (name : String) : Prop := Identifier name.toList ∨
  ∃ owner text, name = String.ofList owner ++ "." ++ String.ofList text ∧ Identifier owner ∧ Identifier text

theorem Identifier.not_mem {text : List Char} (h : Identifier text) {c : Char} (hc : Text.isVariablePart c = false) :
    c ∉ text := by
  obtain ⟨_, _, _, _, hall⟩ := h.exists_cons
  intro hmem
  rw [hall c hmem] at hc
  cases hc

theorem Blank.not_mem {gap : List Char} (h : Blank gap) {c : Char} (hc : Text.isBlank c = false) : c ∉ gap := by
  intro hmem
  rw [h c hmem] at hc
  cases hc

theorem Target.Fits.exists_cons {names : List String} {t : Target} (h : t.Fits names) :
    ∃ c rest, t.chars = c :: rest ∧ Text.isVariableStart c = true := by
  cases t with
  | name text gap =>
    obtain ⟨c, rest, rfl, hc, _⟩ := h.2.1.exists_cons
    exact ⟨c, rest ++ gap, rfl, hc⟩
  | path owner gap₁ gap₂ text gap₃ =>
    obtain ⟨c, rest, rfl, hc, _⟩ := h.2.1.exists_cons
    exact ⟨c, _, rfl, hc⟩

theorem Target.Fits.paren_not_mem {names : List String} {t : Target} (h : t.Fits names) : '(' ∉ t.chars := by
  cases t with
  | name text gap =>
    obtain ⟨_, htext, hgap⟩ := h
    simp [Target.chars, htext.not_mem (c := '(') (by decide), hgap.not_mem (c := '(') (by decide)]
  | path owner gap₁ gap₂ text gap₃ =>
    obtain ⟨_, howner, htext, hgap₁, hgap₂, hgap₃⟩ := h
    simp [Target.chars, howner.not_mem (c := '(') (by decide), htext.not_mem (c := '(') (by decide),
      hgap₁.not_mem (c := '(') (by decide), hgap₂.not_mem (c := '(') (by decide), hgap₃.not_mem (c := '(') (by decide)]

theorem matchElements_chars {xs cs m r : List Char} {es : List Element} :
    matchElements (xs.map .char ++ es) cs = some (m, r) ↔
      ∃ cs' m', cs = xs ++ cs' ∧ m = xs ++ m' ∧ matchElements es cs' = some (m', r) := by
  induction xs generalizing cs m with
  | nil => simp
  | cons x xs ih =>
    cases cs with
    | nil => simp [matchElements]
    | cons c cs =>
      simp only [List.map_cons, List.cons_append, matchElements]
      by_cases hc : c = x
      · subst hc
        rw [if_pos rfl, Option.map_eq_some_iff]
        constructor
        · rintro ⟨⟨m', r'⟩, hm, heq⟩
          cases heq
          obtain ⟨cs', m'', rfl, rfl, h⟩ := ih.1 hm
          exact ⟨cs', m'', rfl, rfl, h⟩
        · rintro ⟨cs', m', heq, rfl, h⟩
          cases heq
          exact ⟨⟨xs ++ m', r⟩, ih.2 ⟨cs', m', rfl, rfl, h⟩, rfl⟩
      · simp [hc]

theorem matchElements_blanks {cs m r : List Char} {es : List Element}
    (h : matchElements (.blanks :: es) cs = some (m, r)) :
    ∃ gap cs' m', Blank gap ∧ cs = gap ++ cs' ∧ m = gap ++ m' ∧ matchElements es cs' = some (m', r) := by
  induction cs generalizing m with
  | nil =>
    rw [matchElements] at h
    exact ⟨[], [], m, List.forall_mem_nil _, rfl, rfl, h⟩
  | cons c cs ih =>
    rw [matchElements] at h
    split at h
    · rename_i hblank
      split at h
      · rename_i m' r' hrest
        cases h
        obtain ⟨gap, cs', m', hgap, rfl, rfl, hes⟩ := ih hrest
        exact ⟨c :: gap, cs', m', List.forall_mem_cons.2 ⟨hblank, hgap⟩, rfl, rfl, hes⟩
      · exact ⟨[], c :: cs, m, List.forall_mem_nil _, rfl, rfl, h⟩
    · exact ⟨[], c :: cs, m, List.forall_mem_nil _, rfl, rfl, h⟩

theorem isSome_matchElements_chars (xs : List Char) {cs : List Char} {es : List Element}
    (h : (matchElements es cs).isSome) : (matchElements (xs.map .char ++ es) (xs ++ cs)).isSome := by
  obtain ⟨⟨m, r⟩, hm⟩ := Option.isSome_iff_exists.1 h
  exact Option.isSome_iff_exists.2 ⟨_, matchElements_chars.2 ⟨cs, m, rfl, rfl, hm⟩⟩

theorem isSome_matchElements_blanks {gap cs : List Char} {es : List Element} (hgap : Blank gap)
    (h : (matchElements es cs).isSome) : (matchElements (.blanks :: es) (gap ++ cs)).isSome := by
  induction gap with
  | nil =>
    cases cs with
    | nil =>
      rw [List.nil_append, matchElements]
      exact h
    | cons c cs =>
      rw [List.nil_append, matchElements]
      split
      · split
        · rfl
        · exact h
      · exact h
  | cons c gap ih =>
    have ih := ih fun d hd => hgap d (List.mem_cons_of_mem c hd)
    obtain ⟨⟨m, r⟩, hm⟩ := Option.isSome_iff_exists.1 ih
    rw [List.cons_append, matchElements, if_pos (hgap c List.mem_cons_self), hm]
    rfl

theorem flatMap_elements {text : List Char} (h : Identifier text) :
    text.flatMap (fun c => if c = '.' then [.blanks, .char '.', .blanks] else [.char c]) = text.map Element.char := by
  have hdot : ∀ c ∈ text, c ≠ '.' := by
    rintro c hc rfl
    exact h.not_mem (by decide) hc
  clear h
  induction text with
  | nil => rfl
  | cons c text ih =>
    rw [List.flatMap_cons, if_neg (hdot c List.mem_cons_self), ih fun d hd => hdot d (List.mem_cons_of_mem c hd)]
    rfl

theorem callPattern_name {text : List Char} (h : Identifier text) :
    (callPattern (String.ofList text)).body ++ [.char '('] = text.map .char ++ [.blanks, .char '('] := by
  simp [callPattern, flatMap_elements h]

theorem callPattern_path {owner text : List Char} (howner : Identifier owner) (htext : Identifier text) :
    (callPattern (String.ofList owner ++ "." ++ String.ofList text)).body ++ [.char '('] = owner.map .char ++
      .blanks :: (['.'].map .char ++ .blanks :: (text.map .char ++ [.blanks, .char '('])) := by
  simp [callPattern, flatMap_elements howner, flatMap_elements htext]

theorem matchElements_end {x : Char} {cs m r : List Char} (h : matchElements [.blanks, .char x] cs = some (m, r)) :
    ∃ gap, Blank gap ∧ cs = gap ++ x :: r ∧ m = gap ++ [x] := by
  obtain ⟨gap, cs, m, hgap, rfl, rfl, hlast⟩ := matchElements_blanks h
  rw [show [Element.char x] = [x].map .char ++ [] from rfl, matchElements_chars] at hlast
  obtain ⟨cs, m, rfl, rfl, hnil⟩ := hlast
  rw [matchElements] at hnil
  cases hnil
  exact ⟨gap, hgap, rfl, rfl⟩

theorem matchElements_callee {names : List String} {name : String} {cs m r : List Char} (hname : Callable name)
    (hmem : name ∈ names) (h : matchElements ((callPattern name).body ++ [.char '(']) cs = some (m, r)) :
    ∃ t : Target, t.Fits names ∧ cs = t.chars ++ '(' :: r ∧ m = t.chars ++ ['('] := by
  rcases hname with htext | ⟨owner, text, rfl, howner, htext⟩
  · rw [← String.ofList_toList (s := name), callPattern_name htext] at h
    obtain ⟨cs, m, rfl, rfl, hend⟩ := matchElements_chars.1 h
    obtain ⟨gap, hgap, rfl, rfl⟩ := matchElements_end hend
    refine ⟨.name name.toList gap, ⟨?_, htext, hgap⟩, by simp [Target.chars], by simp [Target.chars]⟩
    rw [Target.callName, String.ofList_toList]
    exact hmem
  · rw [callPattern_path howner htext] at h
    obtain ⟨cs, m, rfl, rfl, h₁⟩ := matchElements_chars.1 h
    obtain ⟨gap₁, cs, m, hgap₁, rfl, rfl, hdot⟩ := matchElements_blanks h₁
    obtain ⟨cs, m, rfl, rfl, h₂⟩ := matchElements_chars.1 hdot
    obtain ⟨gap₂, cs, m, hgap₂, rfl, rfl, hword⟩ := matchElements_blanks h₂
    obtain ⟨cs, m, rfl, rfl, hend⟩ := matchElements_chars.1 hword
    obtain ⟨gap₃, hgap₃, rfl, rfl⟩ := matchElements_end hend
    exact ⟨.path owner gap₁ gap₂ text gap₃, ⟨hmem, howner, htext, hgap₁, hgap₂, hgap₃⟩,
      by simp [Target.chars], by simp [Target.chars]⟩

theorem isSome_matchElements_end (x : Char) {gap : List Char} (hgap : Blank gap) (r : List Char) :
    (matchElements [.blanks, .char x] (gap ++ x :: r)).isSome :=
  isSome_matchElements_blanks hgap (by rw [matchElements, if_pos rfl, matchElements]; rfl)

theorem Target.Fits.isSome_matchElements {names : List String} {t : Target} (h : t.Fits names) (r : List Char) :
    (matchElements ((callPattern t.callName).body ++ [.char '(']) (t.chars ++ '(' :: r)).isSome := by
  cases t with
  | name text gap =>
    obtain ⟨_, htext, hgap⟩ := h
    rw [Target.callName, callPattern_name htext, Target.chars, List.append_assoc]
    exact isSome_matchElements_chars text (isSome_matchElements_end '(' hgap r)
  | path owner gap₁ gap₂ text gap₃ =>
    obtain ⟨_, howner, htext, hgap₁, hgap₂, hgap₃⟩ := h
    rw [Target.callName, callPattern_path howner htext, Target.chars]
    simp only [List.append_assoc, List.cons_append]
    refine isSome_matchElements_chars owner (isSome_matchElements_blanks hgap₁ ?_)
    have hmember := isSome_matchElements_blanks hgap₂ (isSome_matchElements_chars text (isSome_matchElements_end '(' hgap₃ r))
    exact isSome_matchElements_chars ['.'] hmember

theorem append_cons_inj {x : Char} {xs ys r r' : List Char} (hx : x ∉ xs) (hy : x ∉ ys)
    (h : xs ++ x :: r = ys ++ x :: r') : xs = ys ∧ r = r' := by
  induction xs generalizing ys with
  | nil =>
    cases ys with
    | nil => exact ⟨rfl, (List.cons.inj h).2⟩
    | cons y ys => exact absurd ((List.cons.inj h).1 ▸ List.mem_cons_self) hy
  | cons c xs ih =>
    cases ys with
    | nil => exact absurd ((List.cons.inj h).1 ▸ List.mem_cons_self) hx
    | cons y ys =>
      obtain ⟨hhead, htail⟩ := List.cons.inj h
      obtain ⟨rfl, rfl⟩ := ih (fun hmem => hx (List.mem_cons_of_mem c hmem))
        (fun hmem => hy (List.mem_cons_of_mem y hmem)) htail
      exact ⟨by rw [hhead], rfl⟩

section

variable {names : List String} (hnames : ∀ name ∈ names, Callable name)

include hnames

/-- What is found is a callee of one of the names and the parenthesis behind it, at the start of a
word. -/
theorem firstMatch_callee {before cs : List Char} {m : Match} (h : firstMatch (callPatterns names) before cs = some m) :
    ∃ t : Target, t.Fits names ∧ cs = t.chars ++ '(' :: m.rest ∧ m.text = t.chars ++ ['('] ∧
      before.head?.any Text.isWord = false := by
  rw [firstMatch] at h
  split at h
  · rename_i hboundary
    obtain ⟨p, hp, hstart⟩ := List.exists_of_findSome?_eq_some h
    obtain ⟨name, hmem, rfl⟩ := mem_callPatterns.1 hp
    obtain ⟨⟨text, rest⟩, hm, rfl⟩ := Option.map_eq_some_iff.1 hstart
    obtain ⟨t, ht, rfl, rfl⟩ := matchElements_callee (hnames name hmem) hmem hm
    refine ⟨t, ht, rfl, rfl, ?_⟩
    obtain ⟨c, xs, hchars, hc⟩ := ht.exists_cons
    have hword := Text.isWord_of_isVariablePart (Text.isVariablePart_of_isVariableStart hc)
    simpa [atBoundary, hchars, hword] using hboundary
  · cases h

theorem firstMatch_of_fits {before : List Char} {t : Target} (ht : t.Fits names)
    (hbefore : before.head?.any Text.isWord = false) (r : List Char) :
    ∃ name, firstMatch (callPatterns names) before (t.chars ++ '(' :: r) = some ⟨name, t.chars ++ ['('], r⟩ := by
  have hboundary : atBoundary before (t.chars ++ '(' :: r) = true := by
    obtain ⟨c, xs, hchars, hc⟩ := ht.exists_cons
    have hword := Text.isWord_of_isVariablePart (Text.isVariablePart_of_isVariableStart hc)
    simp [atBoundary, hchars, hword, hbefore]
  have hsome : ((callPatterns names).findSome? (·.matchStart (t.chars ++ '(' :: r))).isSome = true := by
    rw [List.findSome?_isSome_iff]
    refine ⟨callPattern t.callName, mem_callPatterns.2 ⟨t.callName, ht.1, rfl⟩, ?_⟩
    rw [Pattern.matchStart, Option.isSome_map]
    exact ht.isSome_matchElements r
  obtain ⟨m, hm⟩ := Option.isSome_iff_exists.1 hsome
  have hfirst : firstMatch (callPatterns names) before (t.chars ++ '(' :: r) = some m := by
    rw [firstMatch, if_pos hboundary]
    exact hm
  obtain ⟨t', ht', heq, htext, _⟩ := firstMatch_callee hnames hfirst
  obtain ⟨hchars, hrest⟩ := append_cons_inj ht.paren_not_mem ht'.paren_not_mem heq
  refine ⟨m.name, ?_⟩
  rw [hfirst, hchars, ← htext, hrest]

end

theorem Identifier.inside {text r xs zs : List Char} {c : Char} (h : Identifier text) (heq : text ++ r = xs ++ c :: zs)
    (hxs : xs.getLast?.any Text.isWord = false) : xs = [] ∨ ∃ ys, xs = text ++ ys ∧ r = ys ++ c :: zs := by
  rcases List.append_eq_append_iff.1 heq with ⟨ys, hys, hr⟩ | ⟨ys, htext, _⟩
  · exact Or.inr ⟨ys, hys, hr⟩
  · by_cases hnil : xs = []
    · exact Or.inl hnil
    · obtain ⟨_, _, _, _, hall⟩ := h.exists_cons
      have hlast := hall _ (htext ▸ List.mem_append_left ys (List.getLast_mem hnil))
      rw [List.getLast?_eq_some_getLast hnil, Option.any_some, Text.isWord_of_isVariablePart hlast] at hxs
      cases hxs

theorem Blank.inside {gap r xs zs : List Char} {c : Char} (h : Blank gap) (hc : Text.isVariableStart c = true)
    (heq : gap ++ r = xs ++ c :: zs) : ∃ ys, xs = gap ++ ys ∧ r = ys ++ c :: zs := by
  rcases List.append_eq_append_iff.1 heq with ⟨ys, hys, hr⟩ | ⟨ys, hgap, hr⟩
  · exact ⟨ys, hys, hr⟩
  · cases ys with
    | nil => exact ⟨[], by simpa using hgap.symm, by simpa using hr.symm⟩
    | cons d ys =>
      cases hr
      have hblank := h c (hgap ▸ List.mem_append_right _ List.mem_cons_self)
      have hpart := Text.isVariablePart_of_isVariableStart hc
      rw [Text.not_isVariablePart_of_isBlank hblank] at hpart
      cases hpart

theorem Target.Fits.inside {names : List String} {t : Target} (h : t.Fits names) {xs zs : List Char} {c : Char}
    (hc : Text.isVariableStart c = true) (heq : t.chars = xs ++ c :: zs) (hxs : xs.getLast?.any Text.isWord = false)
    (hne : xs ≠ []) (before : List Char) : Text.followsDot (xs.reverse ++ before) = true := by
  have hstop : ∀ {gap ys : List Char}, Blank gap → gap ≠ ys ++ c :: zs := by
    rintro gap ys hgap rfl
    have hpart := Text.isVariablePart_of_isVariableStart hc
    rw [Text.not_isVariablePart_of_isBlank (hgap c (List.mem_append_right _ List.mem_cons_self))] at hpart
    cases hpart
  cases t with
  | name text gap =>
    obtain ⟨_, htext, hgap⟩ := h
    rcases htext.inside heq hxs with hnil | ⟨ys, _, hys⟩
    · exact absurd hnil hne
    · exact absurd hys (hstop hgap)
  | path owner gap₁ gap₂ text gap₃ =>
    obtain ⟨_, howner, htext, hgap₁, hgap₂, hgap₃⟩ := h
    rcases howner.inside heq hxs with hnil | ⟨ys, rfl, hys⟩
    · exact absurd hnil hne
    · obtain ⟨ys, rfl, hdot⟩ := hgap₁.inside hc hys
      cases ys with
      | nil =>
        cases hdot
        cases hc
      | cons d ys =>
        obtain ⟨rfl, hmember⟩ := List.cons.inj hdot
        obtain ⟨ys, rfl, hword⟩ := hgap₂.inside hc hmember
        have hys : ys.getLast?.any Text.isWord = false := by
          cases hlast : ys.getLast? with
          | none => rfl
          | some d =>
            rw [show owner ++ (gap₁ ++ '.' :: (gap₂ ++ ys)) = owner ++ (gap₁ ++ '.' :: gap₂) ++ ys by simp,
              List.getLast?_append, hlast] at hxs
            exact hxs
        rcases htext.inside hword hys with rfl | ⟨zs, _, hzs⟩
        · have hgap : (gap₂.reverse ++ ('.' :: (gap₁.reverse ++ (owner.reverse ++ before)))).dropWhile Text.isBlank =
              '.' :: (gap₁.reverse ++ (owner.reverse ++ before)) := by
            rw [List.dropWhile_append_of_pos fun d hd => hgap₂ d (List.mem_reverse.1 hd)]
            rfl
          simp [Text.followsDot, hgap]
        · exact absurd hzs (hstop hgap₃)

theorem getLast_of_head {f : Char → Bool} {xs before : List Char} (h : (xs.reverse ++ before).head?.any f = false) :
    xs.getLast?.any f = false := by
  rw [← List.head?_reverse]
  cases hrev : xs.reverse with
  | nil => rfl
  | cons d ds => simpa [hrev] using h

theorem firstMatch_inside {names : List String} (hnames : ∀ name ∈ names, Callable name) {before xs ys : List Char}
    {m m' : Match} (h : firstMatch (callPatterns names) before (xs ++ ys) = some m) (hne : xs ≠ [])
    (hlength : xs.length < m.text.length)
    (h' : firstMatch (callPatterns names) (xs.reverse ++ before) ys = some m') :
    Text.followsDot (xs.reverse ++ before) = true ∧ m'.rest = m.rest ∧ m.text = xs ++ m'.text := by
  obtain ⟨t, ht, heq, htext, _⟩ := firstMatch_callee hnames h
  obtain ⟨t', ht', rfl, htext', hbefore⟩ := firstMatch_callee hnames h'
  have hstarts : xs <+: t.chars := by
    have hcallee : t.chars <+: xs ++ (t'.chars ++ '(' :: m'.rest) := ⟨_, heq.symm⟩
    refine List.prefix_of_prefix_length_le (List.prefix_append xs _) hcallee ?_
    rw [htext, List.length_append, List.length_singleton] at hlength
    omega
  have hparen : '(' ∉ xs ++ t'.chars := by
    rw [List.mem_append, not_or]
    exact ⟨fun hmem => ht.paren_not_mem (hstarts.subset hmem), ht'.paren_not_mem⟩
  rw [← List.append_assoc] at heq
  obtain ⟨hchars, hrest⟩ := append_cons_inj hparen ht.paren_not_mem heq
  obtain ⟨c, zs, hzs, hc⟩ := ht'.exists_cons
  refine ⟨ht.inside hc (hchars.symm.trans (by rw [hzs])) (getLast_of_head hbefore) hne before, hrest, ?_⟩
  rw [htext, htext', ← hchars, List.append_assoc]

theorem parenDistance_append {depth n : Nat} {q : Text.Quoting} {cs : List Char}
    (h : Text.parenDistance depth q cs = some n) (rest : List Char) : Text.parenDistance depth q (cs ++ rest) = some n := by
  fun_induction Text.parenDistance depth q cs generalizing n <;> grind [Text.parenDistance, Option.map_eq_some_iff]

theorem eq_of_parenDistance {depth n : Nat} {q : Text.Quoting} {cs : List Char}
    (h : Text.parenDistance depth q cs = some n) : cs = cs.take n ++ ')' :: cs.drop (n + 1) := by
  fun_induction Text.parenDistance depth q cs generalizing n <;> grind [Option.map_eq_some_iff]

theorem eq_of_splitParen {cs args rest : List Char} (h : splitParen cs = some (args, rest)) :
    cs = args ++ ')' :: rest := by
  obtain ⟨n, hn, heq⟩ := Option.map_eq_some_iff.1 h
  cases heq
  exact eq_of_parenDistance hn

theorem splitParen_append {cs args rest : List Char} (h : splitParen cs = some (args, rest)) (ys : List Char) :
    splitParen (cs ++ ys) = some (args, rest ++ ys) := by
  obtain ⟨n, hn, heq⟩ := Option.map_eq_some_iff.1 h
  cases heq
  have hlength := length_of_parenDistance hn
  rw [splitParen, parenDistance_append hn, Option.map_some, List.take_append_of_le_length (Nat.le_of_lt hlength),
    List.drop_append_of_le_length hlength]

section

variable {patterns : List Pattern} {spans : List Text.Span} {i : Nat} {before cs : List Char} {m : Match}

theorem sequenceFrom_end : sequenceFrom patterns spans i before [] = [] := by
  rw [sequenceFrom]
  split
  · rfl
  · rename_i h
    obtain ⟨heq, hlength⟩ := eq_of_firstMatch h
    rw [(List.append_eq_nil_iff.1 heq.symm).1] at hlength
    cases hlength

theorem sequenceFrom_none {c : Char} (h : firstMatch patterns before (c :: cs) = none) :
    sequenceFrom patterns spans i before (c :: cs) = c :: sequenceFrom patterns spans (i + 1) (c :: before) cs := by
  rw [sequenceFrom]
  split
  · rfl
  · rename_i hm
    rw [h] at hm
    cases hm

theorem sequenceFrom_skip (h : firstMatch patterns before cs = some m)
    (hskip : (Text.inSpans spans i || Text.followsDot before) = true) : sequenceFrom patterns spans i before cs =
      m.text ++ sequenceFrom patterns spans (i + m.text.length) (m.text.reverse ++ before) m.rest := by
  rw [sequenceFrom]
  split
  · rename_i hm
    rw [h] at hm
    cases hm
  · rename_i hm
    rw [h] at hm
    cases hm
    rw [if_pos hskip]

theorem sequenceFrom_call {args rest : List Char} (h : firstMatch patterns before cs = some m)
    (hskip : (Text.inSpans spans i || Text.followsDot before) = false) (hsplit : splitParen m.rest = some (args, rest)) :
    sequenceFrom patterns spans i before cs = awaitCall (Text.followsWord "await" before) m.text
        (sequenceFrom patterns (Text.nonCodeSpans args) 0 [] args) ++
      sequenceFrom patterns spans (i + (m.text.length + args.length + 1))
        ((cs.take (m.text.length + args.length + 1)).reverse ++ before) rest := by
  rw [sequenceFrom]
  split
  · rename_i hm
    rw [h] at hm
    cases hm
  · rename_i hm
    rw [h] at hm
    cases hm
    rw [if_neg (Bool.eq_false_iff.1 hskip)]
    split
    · rename_i hs
      rw [hsplit] at hs
      cases hs
    · rename_i hs
      rw [hsplit] at hs
      cases hs
      rfl

theorem sequenceFrom_unclosed (h : firstMatch patterns before cs = some m)
    (hskip : (Text.inSpans spans i || Text.followsDot before) = false) (hsplit : splitParen m.rest = none) :
    sequenceFrom patterns spans i before cs = cs := by
  rw [sequenceFrom]
  split
  · rename_i hm
    rw [h] at hm
    cases hm
  · rename_i hm
    rw [h] at hm
    cases hm
    rw [if_neg (Bool.eq_false_iff.1 hskip)]
    split
    · rfl
    · rename_i hs
      rw [hsplit] at hs
      cases hs

theorem foundFrom_cons (h : firstMatch patterns before cs = some m)
    (hskip : (Text.inSpans spans i || Text.followsDot before) = false) : foundFrom patterns spans i before cs =
      m.name :: foundFrom patterns spans (i + m.text.length) (m.text.reverse ++ before) m.rest := by
  rw [foundFrom]
  split
  · rename_i hm
    rw [h] at hm
    cases hm
  · rename_i hm
    rw [h] at hm
    cases hm
    rw [if_neg (Bool.eq_false_iff.1 hskip)]

theorem foundFrom_none {c : Char} (h : firstMatch patterns before (c :: cs) = none) :
    foundFrom patterns spans i before (c :: cs) = foundFrom patterns spans (i + 1) (c :: before) cs := by
  rw [foundFrom]
  split
  · rfl
  · rename_i hm
    rw [h] at hm
    cases hm

theorem foundFrom_skip (h : firstMatch patterns before cs = some m)
    (hskip : (Text.inSpans spans i || Text.followsDot before) = true) : foundFrom patterns spans i before cs =
      foundFrom patterns spans (i + m.text.length) (m.text.reverse ++ before) m.rest := by
  rw [foundFrom]
  split
  · rename_i hm
    rw [h] at hm
    cases hm
  · rename_i hm
    rw [h] at hm
    cases hm
    rw [if_pos hskip]

theorem foundFrom_eq_nil (h : ((List.range cs.length).all fun k =>
    (firstMatch patterns ((cs.take k).reverse ++ before) (cs.drop k)).isNone) = true) :
    foundFrom patterns spans i before cs = [] := by
  induction cs generalizing i before with
  | nil =>
    rw [foundFrom]
    split
    · rfl
    · rename_i hm
      obtain ⟨heq, hlength⟩ := eq_of_firstMatch hm
      rw [(List.append_eq_nil_iff.1 heq.symm).1] at hlength
      cases hlength
  | cons c cs ih =>
    rw [List.all_eq_true] at h
    have hnone : firstMatch patterns before (c :: cs) = none := by
      simpa using h 0 (by simp)
    rw [foundFrom]
    split
    · refine ih (List.all_eq_true.2 fun k hk => ?_)
      have hplace := h (k + 1) (by simpa using hk)
      simpa using hplace
    · rename_i hm
      rw [hnone] at hm
      cases hm

end

/-- Every call that is found at the place is left alone. -/
def Idle (names : List String) (spans : List Text.Span) (i : Nat) (before cs : List Char) : Prop :=
  ∀ m, firstMatch (callPatterns names) before cs = some m → (Text.inSpans spans i || Text.followsDot before) = true

theorem sequenceFrom_inside {names : List String} (hnames : ∀ name ∈ names, Callable name) (spans : List Text.Span)
    {before cs : List Char} {m : Match} (h : firstMatch (callPatterns names) before cs = some m) (ys : List Char) :
    ∀ xs i, xs ≠ [] → m.text = xs ++ ys →
      sequenceFrom (callPatterns names) spans i (xs.reverse ++ before) (ys ++ m.rest) =
        ys ++ sequenceFrom (callPatterns names) spans (i + ys.length) (ys.reverse ++ (xs.reverse ++ before)) m.rest := by
  induction ys with
  | nil => exact fun xs i _ _ => rfl
  | cons y ys ih =>
    intro xs i hne htext
    have hcs : cs = xs ++ (y :: ys ++ m.rest) := by
      rw [(eq_of_firstMatch h).1, htext, List.append_assoc]
    have hlength : xs.length < m.text.length := by
      rw [htext, List.length_append, List.length_cons]
      omega
    cases hm : firstMatch (callPatterns names) (xs.reverse ++ before) (y :: ys ++ m.rest) with
    | none =>
      have hstep := ih (xs ++ [y]) (i + 1) (by simp) (by rw [htext, List.append_assoc]; rfl)
      simp only [List.reverse_append, List.reverse_singleton, List.nil_append, List.cons_append] at hstep hm
      rw [List.cons_append, sequenceFrom_none hm, hstep]
      simp [Nat.add_assoc, Nat.add_comm 1]
    | some m' =>
      obtain ⟨hdot, hrest, htext'⟩ := firstMatch_inside hnames (hcs ▸ h) hne hlength hm
      have hys : m'.text = y :: ys := List.append_cancel_left (htext'.symm.trans htext)
      rw [sequenceFrom_skip hm (by rw [hdot, Bool.or_true]), hys, hrest]

theorem sequenceFrom_idle {names : List String} (hnames : ∀ name ∈ names, Callable name) {spans : List Text.Span}
    {i : Nat} {before cs : List Char} {c : Char} (h : Idle names spans i before (c :: cs)) :
    sequenceFrom (callPatterns names) spans i before (c :: cs) =
      c :: sequenceFrom (callPatterns names) spans (i + 1) (c :: before) cs := by
  cases hm : firstMatch (callPatterns names) before (c :: cs) with
  | none => exact sequenceFrom_none hm
  | some m =>
    obtain ⟨heq, hlength⟩ := eq_of_firstMatch hm
    cases htext : m.text with
    | nil =>
      rw [htext] at hlength
      cases hlength
    | cons d ys =>
      rw [htext, List.cons_append] at heq
      cases heq
      have hcopy := sequenceFrom_inside hnames spans hm ys [c] (i + 1) (List.cons_ne_nil c []) (htext.trans rfl)
      simp only [List.reverse_singleton, List.singleton_append] at hcopy
      rw [sequenceFrom_skip hm (h m hm), htext, hcopy]
      simp [Nat.add_assoc, Nat.add_comm 1]

theorem sequenceFrom_copy {names : List String} (hnames : ∀ name ∈ names, Callable name) {spans : List Text.Span}
    (xs : List Char) : ∀ (i : Nat) (before cs : List Char),
      (∀ ys c zs, xs = ys ++ c :: zs → Idle names spans (i + ys.length) (ys.reverse ++ before) (c :: (zs ++ cs))) →
      sequenceFrom (callPatterns names) spans i before (xs ++ cs) =
        xs ++ sequenceFrom (callPatterns names) spans (i + xs.length) (xs.reverse ++ before) cs := by
  induction xs with
  | nil => exact fun _ _ _ _ => rfl
  | cons x xs ih =>
    intro i before cs h
    have htail := ih (i + 1) (x :: before) cs fun ys c zs heq => by
      have hidle := h (x :: ys) c zs (by rw [heq, List.cons_append])
      simpa [Nat.add_assoc, Nat.add_comm 1] using hidle
    have hhead : Idle names spans i before (x :: (xs ++ cs)) := h [] x xs rfl
    rw [List.cons_append, sequenceFrom_idle hnames hhead, htail]
    simp [Nat.add_assoc, Nat.add_comm 1]

end LiveSheet.Await
