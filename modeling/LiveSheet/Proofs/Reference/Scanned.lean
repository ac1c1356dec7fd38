import LiveSheet.Proofs.Await.Surroundings
import LiveSheet.Proofs.Reference.Alignment

/-! The scan of a text has every name that a reader of the text comes past. The reader stands in code where the scan
does, and what it came past last is what the scan looks back for. -/

namespace LiveSheet.References

theorem exists_run (f : Char → Bool) (cs : List Char) : ∃ run stop, cs = run ++ stop ∧ (∀ c ∈ run, f c = true) ∧
    stop.head?.any f = false :=
  ⟨cs.takeWhile f, cs.dropWhile f, List.takeWhile_append_dropWhile.symm, fun _ hc => List.mem_takeWhile_imp hc,
    Await.head?_any_dropWhile f cs⟩

theorem wordsFrom_word {word after : List Char} (hwords : ∀ c ∈ word, Text.isWord c = true)
    (hafter : after.head?.any Text.isWord = false) (hne : word ≠ []) (i : Nat) (before : List Char) :
    Text.wordsFrom i before (word ++ after) =
      (if Text.isVariableName word then [⟨i, before, word, after⟩] else []) ++
        Text.wordsFrom (i + word.length) (word.reverse ++ before) after := by
  obtain ⟨c, word, rfl⟩ := List.exists_cons_of_ne_nil hne
  obtain ⟨hc, hwords⟩ := List.forall_mem_cons.1 hwords
  obtain ⟨htake, hdrop⟩ := Await.takeWhile_append_of_stop hwords hafter
  rw [List.cons_append, Text.wordsFrom, if_pos hc, htake, hdrop]
  dsimp only
  split <;> rfl

theorem wordsFrom_mark {c : Char} (hc : Text.isWord c = false) (i : Nat) (before cs : List Char) :
    Text.wordsFrom i before (c :: cs) = Text.wordsFrom (i + 1) (c :: before) cs := by
  rw [Text.wordsFrom, if_neg (Bool.eq_false_iff.1 hc)]

theorem getLast?_any_of_cons {f : Char → Bool} {c : Char} {cs : List Char} (h : (c :: cs).getLast?.any f = false) :
    cs.getLast?.any f = false := by
  cases cs with
  | nil => rfl
  | cons d cs => simpa [List.getLast?_cons] using h

/-- A variable name that stands alone is one of the words. The induction goes over the text in front of it, word by
word: none of them reaches into the name. -/
theorem mem_wordsFrom {name after : List Char} (hname : Text.isVariableName name = true)
    (hafter : after.head?.any Text.isWord = false) (front : List Char) (i : Nat) (before : List Char)
    (hfront : front.getLast?.any Text.isWord = false) :
    ⟨i + front.length, front.reverse ++ before, name, after⟩ ∈ Text.wordsFrom i before (front ++ (name ++ after)) := by
  have hwords : ∀ c ∈ name, Text.isWord c = true := fun c hc =>
    Text.isWord_of_isVariablePart (Text.isVariablePart_of_isVariableName hname c hc)
  induction hn : front.length using Nat.strongRecOn generalizing front i before with
  | ind n ih =>
    subst hn
    obtain ⟨run, stop, rfl, hrun, hstop⟩ := exists_run Text.isWord front
    cases stop with
    | nil =>
      have hnil : run = [] := by
        by_contra hne
        rw [List.append_nil, List.getLast?_eq_some_getLast hne, Option.any_some, hrun _ (List.getLast_mem hne)] at hfront
        cases hfront
      subst hnil
      have hne : name ≠ [] := by
        rintro rfl
        cases hname
      rw [List.append_nil, List.nil_append, wordsFrom_word hwords hafter hne, if_pos hname]
      exact List.mem_append_left _ List.mem_cons_self
    | cons c stop =>
      have hstop' : (c :: (stop ++ (name ++ after))).head?.any Text.isWord = false := hstop
      have hmore : ∀ w ∈ Text.wordsFrom (i + run.length) (run.reverse ++ before) (c :: (stop ++ (name ++ after))),
          w ∈ Text.wordsFrom i before (run ++ c :: (stop ++ (name ++ after))) := by
        intro w hw
        by_cases hne : run = []
        · subst hne
          exact hw
        · rw [wordsFrom_word hrun hstop' hne]
          exact List.mem_append_right _ hw
      rw [List.getLast?_append_cons] at hfront
      have hrest := ih stop.length (by grind) stop (i + run.length + 1) (c :: (run.reverse ++ before))
        (getLast?_any_of_cons hfront) rfl
      rw [← wordsFrom_mark hstop] at hrest
      have hplace : i + (run ++ c :: stop).length = i + run.length + 1 + stop.length := by
        simp
        omega
      rw [hplace]
      simpa using hmore _ hrest

variable (spans : List Text.Span)

/-- `this` in code, and some text behind it. -/
def Owned (between before : List Char) : Prop := ∃ outer, before = between.reverse ++ ("this".toList.reverse ++ outer) ∧
  outer.head?.any Text.isWord = false ∧ outer.head?.any Text.isNamePart = false ∧
  Text.inSpans spans outer.length = false

/-- The text before a place where no word goes on is what a sight says. -/
structure Trace (s : Sight) (before : List Char) : Prop where
  member : s ≠ .dot → s ≠ .selfDot → Text.followsDot before = false
  self : s = .self → ∃ gap, Await.Blank gap ∧ Owned spans gap before
  selfDot : s = .selfDot → ∃ gap gap', Await.Blank gap ∧ Await.Blank gap' ∧ Owned spans (gap ++ '.' :: gap') before
  bracket : s = .bracket → ∃ gap gap', Await.Blank gap ∧ Await.Blank gap' ∧ Owned spans (gap ++ '[' :: gap') before
  key : ∀ name, s ≠ .key name
  keyed : ∀ name, s = .keyed name → ∃ gap gap' q q' gap'', Await.Blank gap ∧ Await.Blank gap' ∧ Await.Blank gap'' ∧
    isQuote q = true ∧ isQuote q' = true ∧ Owned spans (gap ++ '[' :: (gap' ++ q :: (name ++ q' :: gap''))) before

/-- The text before a place in code is what a sight says. -/
structure Sees (s : Sight) (before : List Char) : Prop where
  parted : (∀ name bare whole, s ≠ .word name bare whole) →
    before.head?.any Text.isWord = false ∧ before.head?.any Text.isNamePart = false
  word : ∀ name bare whole, s = .word name bare whole → ∃ outer, before = name.reverse ++ outer ∧
    (∀ c ∈ name, Text.isWord c = true) ∧ outer.head?.any Text.isWord = false ∧
    (bare = true → Text.followsDot outer = false ∨ followsThis outer = true) ∧
    (whole = true → outer.head?.any Text.isNamePart = false) ∧ (name = [] → Text.followsDot outer = false) ∧
    (name ≠ [] → Text.inSpans spans outer.length = false)
  trace : (∀ name bare whole, s ≠ .word name bare whole) → Trace spans s before

variable {spans} {s : Sight} {before between : List Char} {c : Char}

theorem Owned.cons (h : Owned spans between before) (c : Char) : Owned spans (between ++ [c]) (c :: before) := by
  obtain ⟨outer, rfl, h⟩ := h
  exact ⟨outer, by simp, h⟩

theorem Owned.blank (between : List Char) {gap : List Char} (h : Owned spans (between ++ gap) before) (hgap : Await.Blank gap)
    (hc : Text.isBlank c = true) : ∃ gap', Await.Blank gap' ∧ Owned spans (between ++ gap') (c :: before) := by
  refine ⟨gap ++ [c], ?_, by simpa using h.cons c⟩
  intro d hd
  rcases List.mem_append.1 hd with hd | hd
  · exact hgap d hd
  · obtain rfl := List.mem_singleton.1 hd
    exact hc

theorem dropWhile_blank {gap rest : List Char} (hgap : Await.Blank gap) (hrest : rest.head?.any Text.isBlank = false) :
    (gap ++ rest).dropWhile Text.isBlank = rest := (Await.takeWhile_append_of_stop hgap hrest).2

theorem Owned.followsThis {gap gap' : List Char} (h : Owned spans (gap ++ '.' :: gap') before) (hgap : Await.Blank gap)
    (hgap' : Await.Blank gap') : References.followsThis before = true := by
  obtain ⟨outer, rfl, _, houter, _⟩ := h
  have hreverse : ∀ {gap : List Char}, Await.Blank gap → Await.Blank gap.reverse :=
    fun hgap c hc => hgap c (List.mem_reverse.1 hc)
  have hbefore : (gap ++ '.' :: gap').reverse ++ ("this".toList.reverse ++ outer) =
      gap'.reverse ++ '.' :: (gap.reverse ++ ("this".toList.reverse ++ outer)) := by
    simp
  rw [hbefore, References.followsThis, Text.followsDot, dropWhile_blank (hreverse hgap') rfl, Bool.and_eq_true]
  refine ⟨rfl, Await.followsWord_iff.2 ⟨outer, ?_, houter⟩⟩
  exact dropWhile_blank (hreverse hgap) rfl

theorem followsDot_cons_of_blank (hc : Text.isBlank c = true) (before : List Char) :
    Text.followsDot (c :: before) = Text.followsDot before := by
  simp [Text.followsDot, hc]

theorem followsDot_cons (hc : Text.isBlank c = false) (before : List Char) :
    Text.followsDot (c :: before) = (c == '.') := by
  simp [Text.followsDot, hc]

namespace Trace

theorem of_other (hs : s = .other ∨ s = .slash ∨ s = .hidden ∨ s = .wrapped) (h : Text.followsDot before = false) :
    Trace spans s before := by
  rcases hs with rfl | rfl | rfl | rfl
  all_goals constructor <;> simp [h]

theorem blank (h : Trace spans s before) (hc : Text.isBlank c = true) : Trace spans s (c :: before) where
  member hdot hself := by rw [followsDot_cons_of_blank hc, h.member hdot hself]
  self hs := by
    obtain ⟨gap, hgap, howned⟩ := h.self hs
    simpa using Owned.blank [] howned hgap hc
  selfDot hs := by
    obtain ⟨gap, gap', hgap, hgap', howned⟩ := h.selfDot hs
    obtain ⟨gap'', hgap'', howned⟩ := Owned.blank (gap ++ ['.']) (by simpa using howned) hgap' hc
    exact ⟨gap, gap'', hgap, hgap'', by simpa using howned⟩
  bracket hs := by
    obtain ⟨gap, gap', hgap, hgap', howned⟩ := h.bracket hs
    obtain ⟨gap'', hgap'', howned⟩ := Owned.blank (gap ++ ['[']) (by simpa using howned) hgap' hc
    exact ⟨gap, gap'', hgap, hgap'', by simpa using howned⟩
  key := h.key
  keyed name hs := by
    obtain ⟨gap, gap', q, q', gap'', hgap, hgap', hgap'', hq, hq', howned⟩ := h.keyed name hs
    obtain ⟨gap₁, hgap₁, howned⟩ := Owned.blank (gap ++ '[' :: (gap' ++ q :: (name ++ [q'])))
      (by simpa using howned) hgap'' hc
    exact ⟨gap, gap', q, q', gap₁, hgap, hgap', hgap₁, hq, hq', by simpa using howned⟩

theorem mark (h : Trace spans s before) (hc : Text.isBlank c = false) (hquote : isQuote c = false ∨ s ≠ .bracket) :
    Trace spans (s.mark c) (c :: before) := by
  have hdot : c ≠ '.' → Text.followsDot (c :: before) = false := fun hne => by
    rw [followsDot_cons hc]
    simpa using hne
  unfold Sight.mark
  split
  · split
    · next hs =>
      obtain ⟨gap, hgap, howned⟩ := h.self hs
      refine ⟨fun _ hne => absurd rfl hne, by simp, fun _ => ?_, by simp, by simp, by simp⟩
      exact ⟨gap, [], hgap, List.forall_mem_nil _, howned.cons '.'⟩
    · constructor <;> simp
  · split
    · next hs =>
      obtain ⟨gap, hgap, howned⟩ := h.self hs
      refine ⟨fun _ _ => hdot (by decide), by simp, by simp, fun _ => ?_, by simp, by simp⟩
      exact ⟨gap, [], hgap, List.forall_mem_nil _, howned.cons '['⟩
    · exact of_other (.inl rfl) (hdot (by decide))
  · split
    · exact of_other (by simp) (hdot (by decide))
    · exact of_other (by simp) (hdot (by decide))
  · split
    · exact of_other (by simp) (hdot (by decide))
    · exact of_other (by simp) (hdot (by decide))
  · exact of_other (by simp) (hdot (by decide))
  · next hne _ _ _ _ =>
    rw [if_neg fun h => by simp [h.1, h.2] at hquote]
    exact of_other (.inl rfl) (hdot hne)

end Trace

namespace Sees

theorem followsDot_word {name outer : List Char} (hname : ∀ c ∈ name, Text.isWord c = true) (hne : name ≠ []) :
    Text.followsDot (name.reverse ++ outer) = false := by
  obtain ⟨front, c, rfl⟩ := List.eq_nil_or_concat name |>.resolve_left hne
  have hc : Text.isWord c = true := hname c (by simp)
  have hblank : Text.isBlank c = false := by
    refine Bool.eq_false_iff.2 fun hblank => ?_
    rw [Text.not_isWord_of_isBlank hblank] at hc
    cases hc
  rw [List.concat_eq_append, List.reverse_append, List.reverse_singleton, List.singleton_append, List.cons_append,
    followsDot_cons hblank]
  refine beq_eq_false_iff_ne.2 ?_
  rintro rfl
  cases hc

theorem settled (h : Sees spans s before) : Trace spans s.settled before := by
  cases s with
  | word name bare whole =>
    obtain ⟨outer, rfl, hname, hword, _, hwhole, hnone, hspan⟩ := h.word name bare whole rfl
    have hdot : Text.followsDot (name.reverse ++ outer) = false := by
      by_cases hne : name = []
      · rw [hne]
        exact hnone hne
      · exact followsDot_word hname hne
    rw [Sight.settled]
    split
    · next hthis =>
      obtain ⟨hw, rfl⟩ := hthis
      refine ⟨fun _ _ => hdot, fun _ => ⟨[], List.forall_mem_nil _, outer, rfl, hword, hwhole hw, hspan (by decide)⟩,
        (by simp), by simp, by simp, by simp⟩
    · exact .of_other (.inl rfl) hdot
  | _ => exact h.trace (by simp)

theorem of_trace (h : Trace spans s before) (hs : ∀ name bare whole, s ≠ .word name bare whole)
    (hparted : before.head?.any Text.isWord = false ∧ before.head?.any Text.isNamePart = false) : Sees spans s before :=
  ⟨fun _ => hparted, fun name bare whole heq => absurd heq (hs name bare whole), fun _ => h⟩

theorem word_next (h : Sees spans s before) (hc : Text.isWord c = true) (hspan : Text.inSpans spans before.length = false) :
    Sees spans (s.next c) (c :: before) := by
  suffices hword : ∃ name bare whole outer, s.next c = .word (name ++ [c]) bare whole ∧ before = name.reverse ++ outer ∧
      (∀ d ∈ name, Text.isWord d = true) ∧ outer.head?.any Text.isWord = false ∧
      (bare = true → Text.followsDot outer = false ∨ followsThis outer = true) ∧
      (whole = true → outer.head?.any Text.isNamePart = false) ∧ Text.inSpans spans outer.length = false by
    obtain ⟨name, bare, whole, outer, hnext, rfl, hname, houter, hbare, hwhole, hstart⟩ := hword
    rw [hnext]
    refine ⟨fun hne => absurd rfl (hne _ _ _), fun name' bare' whole' heq => ?_, fun hne => absurd rfl (hne _ _ _)⟩
    cases heq
    refine ⟨outer, by simp, ?_, houter, hbare, hwhole, fun hnil => absurd hnil (by simp), fun _ => hstart⟩
    intro d hd
    rcases List.mem_append.1 hd with hd | hd
    · exact hname d hd
    · rwa [List.mem_singleton.1 hd]
  by_cases hs : ∃ name bare whole, s = .word name bare whole
  · obtain ⟨name, bare, whole, rfl⟩ := hs
    obtain ⟨outer, rfl, hname, houter, hbare, hwhole, _, hstart⟩ := h.word name bare whole rfl
    refine ⟨name, bare, whole, outer, by simp [Sight.next, hc], rfl, hname, houter, hbare, hwhole, ?_⟩
    by_cases hne : name = []
    · subst hne
      exact hspan
    · exact hstart hne
  · have hs : ∀ name bare whole, s ≠ .word name bare whole := fun name bare whole heq => hs ⟨name, bare, whole, heq⟩
    have hparted := h.parted hs
    have htrace := h.trace hs
    refine ⟨[], decide (s ≠ .dot), true, before, ?_, rfl, List.forall_mem_nil _, hparted.1, fun hbare => ?_,
      fun _ => hparted.2, hspan⟩
    · have hword : ∀ d ∈ [c], Text.isWord d = true := by simpa using hc
      exact Sight.after_whole hword (List.cons_ne_nil c []) hs
    · by_cases hself : s = .selfDot
      · obtain ⟨gap, gap', hgap, hgap', howned⟩ := htrace.selfDot hself
        exact .inr (howned.followsThis hgap hgap')
      · exact .inl (htrace.member (of_decide_eq_true hbare) hself)

theorem next (h : Sees spans s before) (hc : Text.isWord c = false) (hquote : isQuote c = false ∨ s.settled ≠ .bracket) :
    Sees spans (s.next c) (c :: before) := by
  by_cases hname : Text.isNamePart c = true
  · have hnext : s.next c = .word [] true false := by simp [Sight.next, hc, hname]
    have hdot : Text.followsDot (c :: before) = false := by
      rw [followsDot_cons (Await.not_isBlank_of_isNamePart hname)]
      refine beq_eq_false_iff_ne.2 ?_
      rintro rfl
      cases hname
    rw [hnext]
    refine ⟨fun hne => absurd rfl (hne _ _ _), fun name bare whole heq => ?_, fun hne => absurd rfl (hne _ _ _)⟩
    cases heq
    exact ⟨c :: before, rfl, List.forall_mem_nil _, by simpa using hc, fun _ => .inl hdot, by simp, fun _ => hdot,
      fun hne => absurd rfl hne⟩
  · have hname := Bool.eq_false_iff.2 hname
    have hparted : (c :: before).head?.any Text.isWord = false ∧ (c :: before).head?.any Text.isNamePart = false := by
      simp [hc, hname]
    by_cases hblank : Text.isBlank c = true
    · rw [s.next_blank hblank]
      split
      · next hslash =>
        have hdot := (h.settled.blank hblank).member (by rw [hslash]; simp) (by rw [hslash]; simp)
        exact of_trace (.of_other (.inl rfl) hdot) (by simp) hparted
      · exact of_trace (h.settled.blank hblank) s.settled_ne_word hparted
    · have hblank := Bool.eq_false_iff.2 hblank
      rw [s.next_mark hc hname hblank]
      refine of_trace (h.settled.mark hblank hquote) ?_ hparted
      intro name bare whole
      unfold Sight.mark
      split
      all_goals
        try split
        all_goals simp

end Sees

/-- The text before a place in a key that a bracket behind `this` leads to. -/
def Keying (spans : List Text.Span) (name before : List Char) : Prop := ∃ gap gap' q, Await.Blank gap ∧ Await.Blank gap' ∧
  isQuote q = true ∧ Owned spans (gap ++ '[' :: (gap' ++ q :: name)) before

/-- The text before a reader is what its sight says. -/
def Spot (spans : List Text.Span) (r : Reader) (before : List Char) : Prop :=
  match r.place with
  | .code => Sees spans r.sight before
  | .quoted quote escaped => isQuote quote = true ∧
    (escaped = false → ∀ name, r.sight = .key name → Keying spans name before)
  | .template _ _ => True

theorem mark_class (h : c ∈ limits) : Text.isWord c = false ∧ Text.isNamePart c = false ∧ Text.isBlank c = false ∧ c ≠ '.' := by
  have hclass : ∀ d ∈ limits, Text.isWord d = false ∧ Text.isNamePart d = false ∧ Text.isBlank d = false ∧ d ≠ '.' := by
    decide
  exact hclass c h

theorem isQuote_mem_limits (h : isQuote c = true) : c ∈ limits := by
  rcases isQuote_cases h with rfl | rfl <;> decide

namespace Spot

theorem of_limit (hc : c ∈ limits) (before : List Char) : Sees spans .other (c :: before) := by
  obtain ⟨hword, hname, hblank, hdot⟩ := mark_class hc
  refine .of_trace (.of_other (.inl rfl) ?_) (by simp) (by simp [hword, hname])
  rw [followsDot_cons hblank]
  exact beq_eq_false_iff_ne.2 hdot

theorem keyed {name : List Char} (h : Keying spans name before) (hquote : isQuote c = true) :
    Sees spans (.keyed name) (c :: before) := by
  obtain ⟨gap, gap', q, hgap, hgap', hq, howned⟩ := h
  obtain ⟨hword, hname, hblank, hdot⟩ := mark_class (isQuote_mem_limits hquote)
  refine .of_trace ⟨fun _ _ => ?_, by simp, by simp, by simp, by simp, fun name' heq => ?_⟩ (by simp) (by simp [hword, hname])
  · rw [followsDot_cons hblank]
    exact beq_eq_false_iff_ne.2 hdot
  · cases heq
    exact ⟨gap, gap', q, c, [], hgap, hgap', List.forall_mem_nil _, hq, hquote, by simpa using howned.cons c⟩

theorem next_quoted {quote : Char} {braces : List Nat} (h : Spot spans ⟨.quoted quote false, braces, s⟩ before) :
    Spot spans ((⟨.quoted quote false, braces, s⟩ : Reader).next c) (c :: before) := by
  obtain ⟨hquote, hkey⟩ := h
  have hkey := hkey rfl
  simp only [Reader.next]
  by_cases hslash : c = '\\'
  · rw [if_pos hslash]
    exact ⟨hquote, by simp⟩
  · rw [if_neg hslash]
    by_cases hc : c = quote
    · rw [if_pos hc]
      subst hc
      cases s with
      | key name =>
        rw [Sight.nextQuoted, if_pos rfl]
        exact keyed (hkey name rfl) hquote
      | _ => exact of_limit (isQuote_mem_limits hquote) before
    · rw [if_neg hc]
      refine ⟨hquote, fun _ name' hsight => ?_⟩
      cases s with
      | key name =>
        simp only [Sight.nextQuoted, if_neg hc] at hsight
        split at hsight
        · cases hsight
          obtain ⟨gap, gap', q, hgap, hgap', hq, howned⟩ := hkey name rfl
          exact ⟨gap, gap', q, hgap, hgap', hq, by simpa using howned.cons c⟩
        · cases hsight
      | _ => cases hsight

theorem next_code {braces : List Nat} {cs : List Char} (h : Sees spans s before)
    (hat : Await.At spans before.length .code braces (c :: cs)) :
    Spot spans ((⟨.code, braces, s⟩ : Reader).next c) (c :: before) := by
  by_cases hquote : isQuote c = true
  · simp only [Reader.next, if_pos hquote, s.next_quote hquote]
    refine ⟨hquote, fun _ name hsight => ?_⟩
    have hbracket : s.settled = .bracket ∧ name = [] := by
      split at hsight
      · cases hsight
        exact ⟨‹_›, rfl⟩
      · cases hsight
    obtain ⟨hbracket, rfl⟩ := hbracket
    obtain ⟨gap, gap', hgap, hgap', howned⟩ := h.settled.bracket hbracket
    exact ⟨gap, gap', c, hgap, hgap', hquote, by simpa using howned.cons c⟩
  · have hsees : Sees spans (s.next c) (c :: before) := by
      by_cases hword : Text.isWord c = true
      · have hbreaks : ∀ d ∈ Await.breaks, Text.isWord d = false := by decide
        refine h.word_next hword (hat.not_inSpans fun hmem => ?_)
        rw [hbreaks c hmem] at hword
        cases hword
      · exact h.next (Bool.eq_false_iff.2 hword) (.inl (Bool.eq_false_iff.2 hquote))
    simp only [Reader.next, if_neg hquote]
    split
    · trivial
    · split
      · exact hsees
      · split
        · exact hsees
        · split
          · split
            · trivial
            · exact hsees
          · exact hsees

theorem next {cs : List Char} {r : Reader} (h : Spot spans r before) (hat : Aligned spans before.length r (c :: cs)) :
    Spot spans (r.next c) (c :: before) := by
  obtain ⟨place, braces, s⟩ := r
  cases place with
  | code => exact next_code h hat
  | quoted quote escaped =>
    cases escaped with
    | true => exact ⟨h.1, by simp [Reader.next]⟩
    | false => exact next_quoted h
  | template escaped dollar =>
    cases escaped with
    | true => trivial
    | false =>
      simp only [Reader.next]
      split
      · next hc =>
        rw [hc.2]
        exact of_limit (by decide) before
      · split
        · trivial
        · split
          · next hc =>
            rw [hc]
            exact of_limit (by decide) before
          · trivial

end Spot

theorem key?_eq {gap gap' gap'' name rest : List Char} {q q' : Char} (hgap : Await.Blank gap) (hgap' : Await.Blank gap')
    (hgap'' : Await.Blank gap'') (hq : isQuote q = true) (hq' : isQuote q' = true) (hname : Text.isVariableName name = true) :
    key? (gap ++ '[' :: (gap' ++ q :: (name ++ q' :: (gap'' ++ ']' :: rest)))) = some name := by
  have hblank : Text.isBlank q = false := (mark_class (isQuote_mem_limits hq)).2.2.1
  have hpart : Text.isVariablePart q' = false := by
    rcases isQuote_cases hq' with rfl | rfl <;> decide
  have hstop : (q' :: (gap'' ++ ']' :: rest)).head?.any Text.isVariablePart = false := by simpa using hpart
  obtain ⟨htake, hdrop⟩ := Await.takeWhile_append_of_stop (Text.isVariablePart_of_isVariableName hname) hstop
  have hkey : Text.trimStart (gap' ++ q :: (name ++ q' :: (gap'' ++ ']' :: rest))) = q :: (name ++ q' :: (gap'' ++ ']' :: rest)) :=
    dropWhile_blank hgap' (by simpa using hblank)
  have hbracket : ∀ inner, Text.trimStart (gap ++ '[' :: inner) = '[' :: inner := fun _ => dropWhile_blank hgap rfl
  have hclose : Text.trimStart (gap'' ++ ']' :: rest) = ']' :: rest := dropWhile_blank hgap'' rfl
  simp [key?, hbracket, hkey, htake, hdrop, hclose, hq, hq', hname]

theorem mem_codeWords {text : String} {outer name after : List Char} (htext : text.toList = outer.reverse ++ (name ++ after))
    (hname : Text.isVariableName name = true) (hafter : after.head?.any Text.isWord = false)
    (houter : outer.head?.any Text.isWord = false) (hcode : Text.inSpans (Text.nonCodeSpans text.toList) outer.length = false) :
    ⟨outer.length, outer, name, after⟩ ∈ codeWords text := by
  have hmem := mem_wordsFrom hname hafter outer.reverse 0 [] (by rwa [List.getLast?_reverse])
  rw [← htext, List.reverse_reverse, List.append_nil, List.length_reverse, Nat.zero_add] at hmem
  exact List.mem_filter.2 ⟨hmem, by rw [hcode]; rfl⟩

theorem mem_reads {text : String} {declared namespaces : NameSet} {w : Text.Word} {n : String} (hw : w ∈ codeWords text)
    (hn : n ∈ variablesOf declared w) : n ∈ (scan text declared namespaces).reads :=
  NameSet.mem_ofNames.2 (List.mem_flatMap.2 ⟨w, hw, hn⟩)

theorem finds_name {r : Reader} {n : String} (h : .name n.toList ∈ r.finds c) :
    r.place = .code ∧ r.sight.ended? c = some n.toList ∧ Text.isVariableName n.toList = true := by
  unfold Reader.finds at h
  split at h
  · next hplace =>
    refine ⟨hplace, ?_⟩
    rcases List.mem_append.1 h with h | h
    · split at h <;> simp at h
    · simpa [Option.filter_eq_some_iff] using h
  · split at h <;> simp at h
  · split at h <;> simp at h

section

variable {text n : String} {declared : NameSet} (namespaces : NameSet) (hn : n ∈ declared)
  (hname : Text.isVariableName n.toList = true)

include hn hname

theorem mem_reads_word {outer after : List Char} (htext : text.toList = outer.reverse ++ (n.toList ++ after))
    (hafter : after.head?.any Text.isWord = false) (houter : outer.head?.any Text.isWord = false)
    (hbare : Text.followsDot outer = false ∨ followsThis outer = true)
    (hcode : Text.inSpans (Text.nonCodeSpans text.toList) outer.length = false) :
    n ∈ (scan text declared namespaces).reads := by
  refine mem_reads (mem_codeWords htext hname hafter houter hcode) ?_
  have hcontains : declared.contains n = true := Std.ExtTreeSet.mem_iff_contains.1 hn
  have hmember : (Text.followsDot outer && !followsThis outer) = false := by
    rcases hbare with h | h <;> simp [h]
  simp [variablesOf, hmember, hcontains]

theorem mem_reads_keyed {rest before : List Char} (htext : text.toList = before.reverse ++ ']' :: rest)
    (h : Trace (Text.nonCodeSpans text.toList) (.keyed n.toList) before) : n ∈ (scan text declared namespaces).reads := by
  obtain ⟨gap, gap', q, q', gap'', hgap, hgap', hgap'', hq, hq', outer, rfl, houter, _, hcode⟩ := h.keyed _ rfl
  have hafter : (gap ++ '[' :: (gap' ++ q :: (n.toList ++ q' :: (gap'' ++ ']' :: rest)))).head?.any Text.isWord = false := by
    cases gap with
    | nil => rfl
    | cons c gap =>
      have hword := Text.not_isWord_of_isBlank (hgap c List.mem_cons_self)
      simpa using hword
  have hsplit : text.toList = outer.reverse ++ ("this".toList ++
      (gap ++ '[' :: (gap' ++ q :: (n.toList ++ q' :: (gap'' ++ ']' :: rest))))) := by
    rw [htext]
    simp
  refine mem_reads (mem_codeWords hsplit (by decide) hafter houter hcode) ?_
  have hcontains : declared.contains n = true := Std.ExtTreeSet.mem_iff_contains.1 hn
  have hthis : String.ofList "this".toList = "this" := String.ofList_toList
  simp only [variablesOf, hthis, if_pos, key?_eq hgap hgap' hgap'' hq hq' hname]
  simp [hcontains]

end

theorem mem_reads_of_finds {text n : String} {declared namespaces : NameSet} {r : Reader} {before cs : List Char} {c : Char}
    (hdeclared : n ∈ declared) (htext : text.toList = before.reverse ++ cs) (hc : (cs ++ ['\n']).head? = some c)
    (hspot : Spot (Text.nonCodeSpans text.toList) r before) (hn : .name n.toList ∈ r.finds c) :
    n ∈ (scan text declared namespaces).reads := by
  obtain ⟨hplace, hended, hname⟩ := finds_name hn
  obtain ⟨place, braces, s⟩ := r
  subst hplace
  have hspot : Sees (Text.nonCodeSpans text.toList) s before := hspot
  have hended : s.ended? c = some n.toList := hended
  unfold Sight.ended? at hended
  split at hended
  · next name whole =>
    split at hended
    · cases hended
    · next hword =>
      cases hended
      obtain ⟨outer, rfl, _, houter, hbare, _, _, hcode⟩ := hspot.word _ _ _ rfl
      have hne : n.toList ≠ [] := by
        intro heq
        rw [heq] at hname
        cases hname
      have hsplit : text.toList = outer.reverse ++ (n.toList ++ cs) := by simpa using htext
      refine mem_reads_word namespaces hdeclared hname hsplit ?_ houter (hbare rfl) (hcode hne)
      cases cs with
      | nil => rfl
      | cons d cs =>
        obtain rfl : d = c := Option.some.inj hc
        simpa using hword
  · split at hended
    · next hclose =>
      cases hended
      subst hclose
      cases cs with
      | nil => cases hc
      | cons d cs =>
        obtain rfl : d = ']' := Option.some.inj hc
        exact mem_reads_keyed namespaces hdeclared hname htext (hspot.trace (by simp))
    · cases hended
  · cases hended

theorem scan_mentions {text n : String} (h : Mentions text.toList n) {declared : NameSet} (hn : n ∈ declared)
    (namespaces : NameSet) : n ∈ (scan text declared namespaces).reads := by
  suffices hrest : ∀ cs before r, text.toList = before.reverse ++ cs → Aligned (Text.nonCodeSpans text.toList) before.length r cs →
      Spot (Text.nonCodeSpans text.toList) r before → .name n.toList ∈ r.findings (cs ++ ['\n']) →
      n ∈ (scan text declared namespaces).reads by
    refine hrest text.toList [] .start rfl (Await.At.begin _) ?_ h
    exact .of_trace (.of_other (.inl rfl) rfl) (by simp [Reader.start]) ⟨rfl, rfl⟩
  intro cs
  induction cs with
  | nil =>
    intro before r htext _ hspot hfound
    rw [List.nil_append, Reader.findings_cons, Reader.findings_nil, List.append_nil] at hfound
    exact mem_reads_of_finds hn htext rfl hspot hfound
  | cons c cs ih =>
    intro before r htext hat hspot hfound
    rw [List.cons_append, Reader.findings_cons, List.mem_append] at hfound
    rcases hfound with hfound | hfound
    · exact mem_reads_of_finds hn htext rfl hspot hfound
    · exact ih (c :: before) (r.next c) (by simpa using htext) hat.next (hspot.next hat) hfound

end LiveSheet.References
