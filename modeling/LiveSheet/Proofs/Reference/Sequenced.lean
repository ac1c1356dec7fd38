import LiveSheet.Proofs.Await.Matching
import LiveSheet.Proofs.Reference.Scanned

/-! Sequencing brings no names into a text but `await`. A reader comes out of an awaited call as it comes out of the
call alone, if the arguments in its parentheses are read the same by themselves. -/

namespace LiveSheet.References

/-- Two readers stand in code and in literals alike, all along a text. -/
def Along (r f : Reader) : List Char → Prop
  | [] => r.place = f.place
  | c :: cs => r.place = f.place ∧ Along (r.next c) (f.next c) cs

/-- A text is read the same by itself, and leads back into the code it starts from. -/
def Alone (r : Reader) (cs : List Char) : Prop :=
  Along r .start cs ∧ (r.after cs).place = .code ∧ (r.after cs).braces = r.braces

/-- What stands in parentheses is read the same by itself. -/
def Enclosed (r : Reader) : List Char → Prop
  | [] => True
  | c :: cs => (c = '(' → r.place = .code → ∀ x ∈ Await.splitParen cs, Alone (r.next c) x.1) ∧ Enclosed (r.next c) cs

variable {r f : Reader} {xs ys : List Char}

theorem Along.refl (r : Reader) (cs : List Char) : Along r r cs := by
  induction cs generalizing r with
  | nil => rfl
  | cons c cs ih => exact ⟨rfl, ih (r.next c)⟩

theorem Along.place (h : Along r f xs) : r.place = f.place := by
  cases xs with
  | nil => exact h
  | cons c xs => exact h.1

theorem Along.after (xs : List Char) (h : Along r f (xs ++ ys)) : Along (r.after xs) (f.after xs) ys := by
  induction xs generalizing r f with
  | nil => exact h
  | cons c xs ih => exact ih h.2

theorem Enclosed.after (xs : List Char) (h : Enclosed r (xs ++ ys)) : Enclosed (r.after xs) ys := by
  induction xs generalizing r with
  | nil => exact h
  | cons c xs ih => exact ih h.2

/-- A word and a dot that a reader has come past stand before it. -/
structure Standing (s : Sight) (before : List Char) : Prop where
  word : ∀ name bare whole, s = .word name bare whole → if name = [] then bare = true else before.head?.any Text.isWord = true
  dot : s = .dot ∨ s = .selfDot → Text.followsDot before = true

/-- Sights behind which a word stands on its own. -/
def Sight.Open (s : Sight) : Prop := (∀ name bare whole, s = .word name bare whole → name = [] ∧ bare = true) ∧ s ≠ .dot

variable {s : Sight} {before : List Char} {c : Char}

namespace Standing

theorem of_mute (hword : ∀ name bare whole, s ≠ .word name bare whole) (hdot : s ≠ .dot) (hself : s ≠ .selfDot) :
    Standing s before where
  word name bare whole heq := absurd heq (hword name bare whole)
  dot h := by rcases h with h | h <;> contradiction

theorem isOpen (h : Standing s before) (hword : before.head?.any Text.isWord = false)
    (hdot : Text.followsDot before = false) : s.Open := by
  refine ⟨fun name bare whole heq => ?_, fun heq => ?_⟩
  · have hname := h.word name bare whole heq
    split at hname
    · next hnil => exact ⟨hnil, hname⟩
    · rw [hword] at hname
      cases hname
  · rw [h.dot (.inl heq)] at hdot
    cases hdot

theorem settled (h : Standing s before) (hs : s.settled = .dot ∨ s.settled = .selfDot) : Text.followsDot before = true := by
  cases s with
  | word name bare whole =>
    simp only [Sight.settled] at hs
    split at hs <;> simp at hs
  | _ => exact h.dot hs

theorem code_next (h : Standing s before) (c : Char) : Standing (s.next c) (c :: before) := by
  by_cases hword : Text.isWord c = true
  · obtain ⟨name, bare, whole, hnext, hne⟩ : ∃ name bare whole, s.next c = .word name bare whole ∧ name ≠ [] := by
      simp only [Sight.next, hword, if_true]
      split <;> exact ⟨_, _, _, rfl, by simp⟩
    refine ⟨fun name' bare' whole' heq => ?_, fun hdot => by simp [hnext] at hdot⟩
    rw [hnext] at heq
    cases heq
    simpa [hne] using hword
  · have hword := Bool.eq_false_iff.2 hword
    by_cases hname : Text.isNamePart c = true
    · have hnext : s.next c = .word [] true false := by simp [Sight.next, hword, hname]
      rw [hnext]
      exact ⟨fun name bare whole heq => by cases heq; rfl, fun hdot => by simp at hdot⟩
    · have hname := Bool.eq_false_iff.2 hname
      by_cases hblank : Text.isBlank c = true
      · rw [s.next_blank hblank]
        split
        · exact of_mute (by simp) (by simp) (by simp)
        · refine ⟨fun name bare whole heq => absurd heq (s.settled_ne_word name bare whole), fun hdot => ?_⟩
          rw [followsDot_cons_of_blank hblank, h.settled hdot]
      · have hblank := Bool.eq_false_iff.2 hblank
        rw [s.next_mark hword hname hblank]
        unfold Sight.mark
        split
        · refine ⟨fun name bare whole heq => ?_, fun _ => by rw [followsDot_cons hblank]; rfl⟩
          split at heq <;> cases heq
        all_goals
          try split
          all_goals exact of_mute (by simp) (by simp) (by simp)

theorem next (h : Standing r.sight before) (c : Char) : Standing (r.next c).sight (c :: before) := by
  obtain ⟨place, braces, s⟩ := r
  cases place with
  | code =>
    have hsight : ((⟨.code, braces, s⟩ : Reader).next c).sight = s.next c := by
      simp only [Reader.next]
      repeat' split
      all_goals rfl
    rw [hsight]
    exact h.code_next c
  | quoted quote escaped =>
    cases escaped with
    | true => exact of_mute (by simp [Reader.next]) (by simp [Reader.next]) (by simp [Reader.next])
    | false =>
      simp only [Reader.next, Sight.nextQuoted]
      repeat' split
      all_goals exact of_mute (by simp) (by simp) (by simp)
  | template escaped dollar =>
    cases escaped with
    | true => exact of_mute (by simp [Reader.next]) (by simp [Reader.next]) (by simp [Reader.next])
    | false =>
      simp only [Reader.next]
      split <;> exact of_mute (by simp) (by simp) (by simp)

theorem after (xs : List Char) (h : Standing r.sight before) : Standing (r.after xs).sight (xs.reverse ++ before) := by
  induction xs generalizing r before with
  | nil => exact h
  | cons c xs ih =>
    rw [List.reverse_cons, List.append_assoc]
    exact ih (h.next c)

end Standing

variable {braces : List Nat} {text gap : List Char}

theorem finds_word (hc : Text.isWord c = true) : (⟨.code, braces, s⟩ : Reader).finds c = [] := by
  have hmarks : ∀ d ∈ ['/', '.', '[', '"', '\'', '\\', ']'], c ≠ d := by
    have hclass : ∀ d ∈ ['/', '.', '[', '"', '\'', '\\', ']'], Text.isWord d = false := by decide
    rintro d hd rfl
    rw [hclass c hd] at hc
    cases hc
  simp only [List.forall_mem_cons, List.not_mem_nil, false_implies, implies_true, and_true] at hmarks
  obtain ⟨hslash, hdot, hbracket, hquote, hquote', hback, hclose⟩ := hmarks
  have hmisread : s.settled.isMisread c = false := by
    unfold Sight.isMisread
    split <;> simp [isQuote, hslash, hdot, hbracket, hquote, hquote', hback]
  have hended : s.ended? c = none := by
    unfold Sight.ended?
    split <;> simp [hc, hclose]
  simp [Reader.finds, hmisread, hended]

theorem findings_word (htext : ∀ d ∈ text, Text.isWord d = true) : (⟨.code, braces, s⟩ : Reader).findings text = [] := by
  induction text generalizing s with
  | nil => rfl
  | cons c text ih =>
    obtain ⟨hc, htext⟩ := List.forall_mem_cons.1 htext
    have hlimit : c ∉ limits := fun hmem => by
      rw [(mark_class hmem).1] at hc
      cases hc
    rw [Reader.findings_cons, finds_word hc, Reader.next_code braces s hlimit, ih htext]
    rfl

theorem next_of_settled {s' : Sight} (hs : s.settled = s'.settled) (hword : Text.isWord c = false)
    (hname : Text.isNamePart c = false) : s.next c = s'.next c := by
  simp only [Sight.next, hword, hname, Bool.false_eq_true, if_false, hs]

theorem read_behind_word {whole whole' bare : Bool} (hthis : text ≠ "this".toList) (hc : Text.isWord c = false)
    (hname : Text.isNamePart c = false) (cs : List Char) :
    (⟨.code, braces, .word text bare whole⟩ : Reader).findings (c :: cs) =
      (⟨.code, braces, .word text bare whole'⟩ : Reader).findings (c :: cs) := by
  have hsettled : ∀ whole, (Sight.word text bare whole).settled = .other := fun whole =>
    if_neg fun h => hthis h.2
  have hnext : (Sight.word text bare whole).next c = (Sight.word text bare whole').next c :=
    next_of_settled (by rw [hsettled, hsettled]) hc hname
  have hfinds : (⟨.code, braces, .word text bare whole⟩ : Reader).finds c =
      (⟨.code, braces, .word text bare whole'⟩ : Reader).finds c := by
    simp only [Reader.finds, hsettled]
    cases bare <;> rfl
  have hreader : (⟨.code, braces, .word text bare whole⟩ : Reader).next c =
      (⟨.code, braces, .word text bare whole'⟩ : Reader).next c := by
    simp only [Reader.next, hnext]
  rw [Reader.findings_cons, Reader.findings_cons, hfinds, hreader]

theorem settled_after_gap (hgap : Await.Blank gap) (hs : s.settled ≠ .slash) : (s.after gap).settled = s.settled := by
  induction gap generalizing s with
  | nil => rfl
  | cons c gap ih =>
    obtain ⟨hc, hgap⟩ := List.forall_mem_cons.1 hgap
    have hnext : s.next c = s.settled := by rw [s.next_blank hc, if_neg hs]
    rw [Sight.after_cons, hnext, ih hgap (by rwa [Sight.settled_settled]), Sight.settled_settled]

theorem dot_after_gap (hgap : Await.Blank gap) : Sight.dot.after gap = .dot := by
  induction gap with
  | nil => rfl
  | cons c gap ih =>
    obtain ⟨hc, hgap⟩ := List.forall_mem_cons.1 hgap
    rw [Sight.after_cons, Sight.next_blank _ hc]
    exact ih hgap

theorem next_paren (hs : s.settled = .other) : s.next '(' = .other := by
  rw [s.next_mark (by decide) (by decide) (by decide), hs]
  simp [Sight.mark]

theorem after_chars {cs : List Char} (hcs : ∀ c ∈ cs, c ∉ limits) (hs : s.after cs = .other) :
    (⟨.code, braces, s⟩ : Reader).after cs = ⟨.code, braces, .other⟩ := by
  rw [Reader.after_code braces s hcs, hs]

theorem Sight.Open.after_word (hs : s.Open) (htext : ∀ d ∈ text, Text.isWord d = true) (hne : text ≠ []) :
    ∃ whole, s.after text = .word text true whole := by
  by_cases hword : ∃ name bare whole, s = .word name bare whole
  · obtain ⟨name, bare, whole, rfl⟩ := hword
    obtain ⟨rfl, rfl⟩ := hs.1 name bare whole rfl
    exact ⟨whole, Sight.after_word [] true whole htext⟩
  · have hafter := Sight.after_whole htext hne fun name bare whole heq => hword ⟨name, bare, whole, heq⟩
    rw [decide_eq_true hs.2] at hafter
    exact ⟨true, hafter⟩

theorem identifier_word (h : Await.Identifier text) : (∀ d ∈ text, Text.isWord d = true) ∧ text ≠ [] ∧ text ≠ "this".toList := by
  refine ⟨fun d hd => Text.isWord_of_isVariablePart (Text.isVariablePart_of_isVariableName h.1 d hd), ?_, ?_⟩
  · rintro rfl
    cases h.1
  · rintro rfl
    cases h.2

section

variable {names : List String} {t : Await.Target}

theorem callee_first (ht : t.Fits names) : ∃ text c rest, t.chars ++ ['('] = text ++ c :: rest ∧ Await.Identifier text ∧
    Text.isWord c = false ∧ Text.isNamePart c = false := by
  have hends : ∀ {gap : List Char} (rest : List Char) {c : Char}, Await.Blank gap → Text.isWord c = false → Text.isNamePart c = false →
      ∃ d rest', gap ++ c :: rest = d :: rest' ∧ Text.isWord d = false ∧ Text.isNamePart d = false := by
    intro gap rest c hgap hword hname
    cases gap with
    | nil => exact ⟨c, rest, rfl, hword, hname⟩
    | cons d gap =>
      have hd := hgap d List.mem_cons_self
      exact ⟨d, _, rfl, Text.not_isWord_of_isBlank hd, Text.not_isNamePart_of_isBlank hd⟩
  cases t with
  | name text gap =>
    obtain ⟨_, htext, hgap⟩ := ht
    obtain ⟨d, rest, heq, hd⟩ := hends [] (c := '(') hgap (by decide) (by decide)
    exact ⟨text, d, rest, by rw [Await.Target.chars, List.append_assoc, heq], htext, hd⟩
  | path owner gap₁ gap₂ text gap₃ =>
    obtain ⟨_, howner, _, hgap₁, _⟩ := ht
    obtain ⟨d, rest, heq, hd⟩ := hends (gap₂ ++ (text ++ gap₃) ++ ['(']) (c := '.') hgap₁ (by decide) (by decide)
    exact ⟨owner, d, rest, by rw [← heq]; simp [Await.Target.chars], howner, hd⟩

theorem settled_word (h : text ≠ "this".toList) (bare whole : Bool) : (Sight.word text bare whole).settled = .other :=
  if_neg fun hthis => h hthis.2

theorem callee_after (ht : t.Fits names) (hs : s.Open) : s.after (t.chars ++ ['(']) = .other := by
  cases t with
  | name text gap =>
    obtain ⟨_, htext, hgap⟩ := ht
    obtain ⟨hword, hne, hthis⟩ := identifier_word htext
    obtain ⟨whole, hafter⟩ := hs.after_word hword hne
    have hsettled : (Sight.word text true whole).settled = .other := settled_word hthis true whole
    rw [Await.Target.chars, List.append_assoc, Sight.after_append, hafter, Sight.after_append, Sight.after_cons]
    exact next_paren (by rw [settled_after_gap hgap (by simp [hsettled]), hsettled])
  | path owner gap₁ gap₂ text gap₃ =>
    obtain ⟨_, howner, htext, hgap₁, hgap₂, hgap₃⟩ := ht
    obtain ⟨hword, hne, hthis⟩ := identifier_word howner
    obtain ⟨whole, hafter⟩ := hs.after_word hword hne
    have hsettled : (Sight.word owner true whole).settled = .other := settled_word hthis true whole
    have hdot : ((Sight.word owner true whole).after gap₁).next '.' = .dot := by
      rw [Sight.next_mark _ (by decide) (by decide) (by decide), settled_after_gap hgap₁ (by simp [hsettled]), hsettled]
      rfl
    obtain ⟨hword', hne', hthis'⟩ := identifier_word htext
    have hmember : Sight.dot.after text = .word text false true := Sight.after_whole hword' hne' (by simp)
    have hsettled' : (Sight.word text false true).settled = .other := settled_word hthis' false true
    have hchars : (Await.Target.path owner gap₁ gap₂ text gap₃).chars ++ ['('] =
        owner ++ (gap₁ ++ '.' :: (gap₂ ++ (text ++ (gap₃ ++ ['('])))) := by
      simp [Await.Target.chars]
    rw [hchars, Sight.after_append, hafter, Sight.after_append, Sight.after_cons, hdot, Sight.after_append,
      dot_after_gap hgap₂, Sight.after_append, hmember, Sight.after_append, Sight.after_cons]
    exact next_paren (by rw [settled_after_gap hgap₃ (by simp [hsettled']), hsettled'])

theorem callee_not_mem_limits (ht : t.Fits names) : ∀ c ∈ t.chars ++ ['('], c ∉ limits := by
  have hlimits : ∀ c ∈ limits, c ∈ Await.breaks := by decide
  intro c hc hmem
  rcases List.mem_append.1 hc with hc | hc
  · exact ht.silent c hc (hlimits c hmem)
  · rw [List.mem_singleton.1 hc] at hmem
    exact absurd hmem (by decide)

theorem read_callee (braces : List Nat) (ht : t.Fits names) (hs : s.Open) :
    (⟨.code, braces, s⟩ : Reader).after (t.chars ++ ['(']) = ⟨.code, braces, .other⟩ ∧
      (⟨.code, braces, s⟩ : Reader).findings (t.chars ++ ['(']) =
        (⟨.code, braces, .other⟩ : Reader).findings (t.chars ++ ['(']) := by
  refine ⟨after_chars (callee_not_mem_limits ht) (callee_after ht hs), ?_⟩
  obtain ⟨text, c, rest, heq, htext, hc, hname⟩ := callee_first ht
  obtain ⟨hword, hne, hthis⟩ := identifier_word htext
  have hlimits : ∀ d ∈ text, d ∉ limits := fun d hd =>
    callee_not_mem_limits ht d (heq ▸ List.mem_append_left _ hd)
  have hother : Sight.other.Open := ⟨by simp, by simp⟩
  obtain ⟨whole, hafter⟩ := hs.after_word hword hne
  obtain ⟨whole', hafter'⟩ := hother.after_word hword hne
  rw [heq, Reader.findings_append, Reader.findings_append, findings_word hword, findings_word hword,
    Reader.after_code _ _ hlimits, Reader.after_code _ _ hlimits, hafter, hafter']
  exact congrArg _ (read_behind_word hthis hc hname rest)

end

theorem finds_open_paren (hs : s.Open) : (⟨.code, braces, s⟩ : Reader).finds '(' = [] := by
  have hmisread : s.settled.isMisread '(' = false := by
    unfold Sight.isMisread
    split <;> rfl
  have hended : (s.ended? '(').filter Text.isVariableName = none := by
    unfold Sight.ended?
    split
    · next name whole =>
      obtain ⟨rfl, _⟩ := hs.1 name true whole rfl
      rfl
    · rfl
    · rfl
  simp [Reader.finds, hmisread, hended]

theorem read_await (braces : List Nat) (hs : s.Open) : (⟨.code, braces, s⟩ : Reader).after "(await ".toList = ⟨.code, braces, .other⟩ ∧
    (⟨.code, braces, s⟩ : Reader).findings "(await ".toList = [.name "await".toList] := by
  have hchars : "(await ".toList = '(' :: ("await".toList ++ [' ']) := rfl
  have hlimits : ∀ c ∈ "await".toList, c ∉ limits := by decide
  have hparen : (⟨.code, braces, s⟩ : Reader).next '(' = ⟨.code, braces, s.settled.mark '('⟩ := by
    rw [Reader.next_code braces s (by decide), s.next_mark (by decide) (by decide) (by decide)]
  have hmark : s.settled.mark '(' = .wrapped ∨ s.settled.mark '(' = .other := by
    simp only [Sight.mark]
    split
    · exact .inl rfl
    · exact .inr rfl
  have hword : (s.settled.mark '(').after "await".toList = .word "await".toList true true := by
    rcases hmark with h | h <;> rw [h] <;> exact Sight.after_whole (by decide) (by decide) (by simp)
  have hblank : (Sight.word "await".toList true true).next ' ' = .other := by decide
  constructor
  · rw [hchars, Reader.after_cons, hparen, Reader.after_append, Reader.after_code _ _ hlimits, hword, Reader.after_cons,
      Reader.next_code _ _ (by decide), hblank]
    rfl
  · rw [hchars, Reader.findings_cons, finds_open_paren hs, hparen, Reader.findings_append, findings_word (by decide),
      Reader.after_code _ _ hlimits, hword]
    rfl

/-- A reader comes out of a text with awaits as out of the text, and comes past no other name but `await`. -/
def Awaits (r : Reader) (cs out : List Char) : Prop :=
  r.after out = r.after cs ∧ ∀ x ∈ r.findings out, x ∈ r.findings cs ∨ x = .name "await".toList

namespace Awaits

theorem refl (r : Reader) (cs : List Char) : Awaits r cs cs := ⟨rfl, fun _ => .inl⟩

theorem append {xs' ys' : List Char} (hx : Awaits r xs xs') (hy : Awaits (r.after xs) ys ys') : Awaits r (xs ++ ys) (xs' ++ ys') := by
  refine ⟨by rw [Reader.after_append, Reader.after_append, hx.1, hy.1], fun x hmem => ?_⟩
  rw [Reader.findings_append, List.mem_append]
  rw [Reader.findings_append, hx.1, List.mem_append] at hmem
  rcases hmem with hmem | hmem
  · exact (hx.2 x hmem).imp_left .inl
  · exact (hy.2 x hmem).imp_left .inr

theorem paren {braces : List Nat} (s : Sight) : Awaits ⟨.code, braces, s⟩ [')'] [')', ')'] := by
  have hnext : (⟨.code, braces, s⟩ : Reader).next ')' = ⟨.code, braces, s.settled.mark ')'⟩ := by
    rw [Reader.next_code braces s (by decide), s.next_mark (by decide) (by decide) (by decide)]
  have hmark : s.settled.mark ')' = .hidden ∨ s.settled.mark ')' = .other := by
    simp only [Sight.mark]
    split
    · exact .inl rfl
    · exact .inr rfl
  refine ⟨?_, fun x hmem => .inl ?_⟩
  · change ((⟨.code, braces, s⟩ : Reader).next ')').next ')' = (⟨.code, braces, s⟩ : Reader).next ')'
    rw [hnext]
    rcases hmark with h | h
    all_goals
      rw [h]
      cases braces <;> rfl
  · rw [Reader.findings_cons, hnext] at hmem
    rcases hmark with h | h
    all_goals
      rw [h] at hmem
      exact hmem

theorem call {names : List String} {t : Await.Target} {braces : List Nat} {s : Sight} {args args' : List Char} (ht : t.Fits names)
    (hs : s.Open) (hargs : Awaits ⟨.code, braces, .other⟩ args args')
    (hplace : ((⟨.code, braces, .other⟩ : Reader).after args).place = .code) (awaited : Bool) :
    Awaits ⟨.code, braces, s⟩ (t.chars ++ ['('] ++ (args ++ [')'])) (Await.awaitCall awaited (t.chars ++ ['(']) args') := by
  obtain ⟨hafter, hfindings⟩ := read_callee braces ht hs
  obtain ⟨hawait, hawaits⟩ := read_await braces hs
  have hother : Sight.other.Open := ⟨by simp, by simp⟩
  obtain ⟨hafter', _⟩ := read_callee braces ht hother
  have hcallee : Awaits ⟨.code, braces, s⟩ (t.chars ++ ['(']) ("(await ".toList ++ (t.chars ++ ['('])) := by
    refine ⟨by rw [Reader.after_append, hawait, hafter, hafter'], fun x hmem => ?_⟩
    rw [Reader.findings_append, hawaits, hawait, ← hfindings] at hmem
    exact (List.mem_append.1 hmem).symm.imp_right List.mem_singleton.1
  obtain ⟨place, braces', s', h⟩ : ∃ place braces' s', (⟨.code, braces, .other⟩ : Reader).after args = ⟨place, braces', s'⟩ :=
    ⟨_, _, _, rfl⟩
  rw [h] at hplace
  obtain rfl : place = .code := hplace
  rw [Await.awaitCall]
  split
  · rw [List.append_assoc (t.chars ++ ['('])]
    refine (refl _ _).append ?_
    rw [hafter]
    exact hargs.append (refl _ _)
  · have hclose : "))".toList = [')', ')'] := rfl
    rw [hclose, List.append_assoc ("(await ".toList ++ (t.chars ++ ['(']))]
    refine hcallee.append ?_
    rw [hafter]
    refine hargs.append ?_
    rw [h]
    exact paren s'

end Awaits

theorem Enclosed.alone_args {names : List String} {t : Await.Target} {braces : List Nat} {args rest : List Char}
    (ht : t.Fits names) (hs : s.Open) (h : Enclosed ⟨.code, braces, s⟩ (t.chars ++ '(' :: cs))
    (hsplit : Await.splitParen cs = some (args, rest)) : Alone ⟨.code, braces, .other⟩ args := by
  have hlimits : ∀ c ∈ t.chars, c ∉ limits := fun c hc => callee_not_mem_limits ht c (List.mem_append_left _ hc)
  have hafter := (read_callee braces ht hs).1
  have hparen := (h.after t.chars).1 rfl (by rw [Reader.after_code _ _ hlimits]) _ hsplit
  rw [Reader.after_append, Reader.after_cons, Reader.after_nil] at hafter
  rwa [hafter] at hparen

theorem sequenceFrom_awaits {names : List String} (hnames : ∀ name ∈ names, Await.Callable name) {spans : List Text.Span}
    {before cs post : List Char} (henclosed : Enclosed r (cs ++ post)) (hat : Aligned spans before.length f cs)
    (halong : Along r f cs) (hstanding : Standing r.sight before) :
    Awaits r cs (Await.sequenceFrom (Await.callPatterns names) spans before.length before cs) := by
  induction hlength : cs.length using Nat.strongRecOn generalizing cs post before spans r f with
  | _ n ih =>
    subst hlength
    have hrest : ∀ {xs cs' : List Char}, xs ≠ [] → cs = xs ++ cs' → Awaits (r.after xs) cs' (Await.sequenceFrom
        (Await.callPatterns names) spans (before.length + xs.length) (xs.reverse ++ before) cs') := by
      intro xs cs' hne heq
      subst heq
      have hpos := List.length_pos_iff.2 hne
      have hbefore : before.length + xs.length = (xs.reverse ++ before).length := by simp [Nat.add_comm]
      rw [List.append_assoc] at henclosed
      rw [hbefore]
      exact ih cs'.length (by simp [hpos]) (henclosed.after xs) (hbefore ▸ hat.after xs) (halong.after xs)
        (hstanding.after xs) rfl
    have hcopy : ∀ {xs cs' : List Char}, xs ≠ [] → cs = xs ++ cs' → Awaits r cs (xs ++ Await.sequenceFrom
        (Await.callPatterns names) spans (before.length + xs.length) (xs.reverse ++ before) cs') := by
      intro xs cs' hne heq
      have happend := (Awaits.refl r xs).append (hrest hne heq)
      rwa [← heq] at happend
    cases hm : Await.firstMatch (Await.callPatterns names) before cs with
    | none =>
      cases cs with
      | nil =>
        rw [Await.sequenceFrom_end]
        exact Awaits.refl r []
      | cons c cs =>
        rw [Await.sequenceFrom_none hm]
        exact hcopy (List.cons_ne_nil c []) rfl
    | some m =>
      obtain ⟨t, ht, heq, htext, hword⟩ := Await.firstMatch_callee hnames hm
      cases hskip : Text.inSpans spans before.length || Text.followsDot before with
      | true =>
        rw [Await.sequenceFrom_skip hm hskip]
        exact hcopy (by simp [htext]) (by simp [htext, heq])
      | false =>
        cases hsplit : Await.splitParen m.rest with
        | none =>
          rw [Await.sequenceFrom_unclosed hm hskip hsplit]
          exact Awaits.refl r cs
        | some split =>
          obtain ⟨args, rest⟩ := split
          obtain ⟨hspans, hdot⟩ := Bool.or_eq_false_iff.1 hskip
          have hsplits : cs = (t.chars ++ ['('] ++ (args ++ [')'])) ++ rest := by
            rw [heq, Await.eq_of_splitParen hsplit]
            simp
          have hplace : r.place = .code := by
            obtain ⟨c, cs', hc, _⟩ := ht.exists_cons
            rw [halong.place]
            rw [heq, hc] at hat
            exact hat.place_of_not_inSpans hspans
          obtain ⟨place, braces, s⟩ := r
          obtain rfl : place = .code := hplace
          have hopen : s.Open := hstanding.isOpen hword hdot
          have hafter := (read_callee braces ht hopen).1
          have halone : Alone ⟨.code, braces, .other⟩ args := by
            rw [heq, List.append_assoc, List.cons_append] at henclosed
            exact henclosed.alone_args ht hopen (Await.splitParen_append hsplit post)
          have hargs : Awaits ⟨.code, braces, .other⟩ args
              (Await.sequenceFrom (Await.callPatterns names) (Text.nonCodeSpans args) 0 [] args) := by
            have hchars : cs ++ post = t.chars ++ ['('] ++ (args ++ (')' :: rest ++ post)) := by simp [hsplits]
            rw [hchars] at henclosed
            have hinside := henclosed.after (t.chars ++ ['('])
            rw [hafter] at hinside
            have hbegin : Aligned (Text.nonCodeSpans args) ([] : List Char).length .start args := Await.At.begin args
            exact ih args.length (by grind) hinside hbegin halone.1 (.of_mute (by simp) (by simp) (by simp)) rfl
          have htake : cs.take (m.text.length + args.length + 1) = t.chars ++ ['('] ++ (args ++ [')']) := by
            rw [hsplits, htext]
            exact List.take_left' (by grind)
          have hcall := (Awaits.call ht hopen hargs halone.2.1 (Text.followsWord "await" before)).append (hrest (by simp) hsplits)
          have hcount : m.text.length + args.length + 1 = (t.chars ++ ['('] ++ (args ++ [')'])).length := by grind
          rw [Await.sequenceFrom_call hm hskip hsplit, htake, hcount, htext]
          rwa [← hsplits] at hcall

section

variable {names : List String} (hnames : ∀ name ∈ names, Await.Callable name) {cs : List Char} (henclosed : Enclosed .start cs)

include hnames henclosed

theorem sequenceCalls_awaits : Awaits .start (cs ++ ['\n']) (Await.sequenceCalls names cs ++ ['\n']) := by
  have hbegin : Aligned (Text.nonCodeSpans cs) ([] : List Char).length .start cs := Await.At.begin cs
  rw [← List.append_nil cs] at henclosed
  have hawaits := sequenceFrom_awaits hnames henclosed hbegin (.refl .start cs)
    (.of_mute (by simp [Reader.start]) (by simp [Reader.start]) (by simp [Reader.start]))
  exact hawaits.append (.refl _ _)

theorem plain_sequenceCalls (h : Plain cs) : Plain (Await.sequenceCalls names cs) := fun hmem =>
  ((sequenceCalls_awaits hnames henclosed).2 _ hmem).elim h (by simp)

theorem mentions_sequenceCalls {n : String} (h : Mentions (Await.sequenceCalls names cs) n) (hn : n ≠ "await") : Mentions cs n := by
  refine ((sequenceCalls_awaits hnames henclosed).2 _ h).resolve_right fun heq => hn ?_
  exact String.toList_inj.1 (Finding.name.inj heq)

end

end LiveSheet.References
