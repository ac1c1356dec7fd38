import LiveSheet.Proofs.Await.Surroundings
import Mathlib.Data.Finset.Image

/-! What sequencing does to a text of any kind. Some calls, each inside the parentheses of another or apart from it, get
`(await ` in front and `)` behind, and the characters of the text stay as they are. -/

namespace LiveSheet.Await

/-- A part of a pattern that stands for a character which is no blank. -/
def Element.isMark : Element → Bool
  | .char c => !Text.isBlank c
  | .blanks => false

theorem countP_of_matchElements {es : List Element} {cs m r : List Char} (h : matchElements es cs = some (m, r)) :
    m.countP (fun c => !Text.isBlank c) = es.countP Element.isMark := by
  fun_induction matchElements es cs generalizing m r <;> grind [Option.map_eq_some_iff, Element.isMark]

theorem isSome_matchElements_append {es : List Element} {cs : List Char} (h : (matchElements es cs).isSome)
    (ys : List Char) : (matchElements es (cs ++ ys)).isSome := by
  fun_induction matchElements es cs with
  | case5 es ih => exact isSome_matchElements_blanks (List.forall_mem_nil _) (ih h)
  | _ => grind [matchElements, Option.isSome_map]

theorem last_of_matchElements {es : List Element} {x : Char} {cs m r : List Char}
    (h : matchElements (es ++ [.char x]) cs = some (m, r)) : ∃ xs, m = xs ++ [x] := by
  induction es generalizing cs m with
  | nil =>
    obtain ⟨_, m', _, rfl, hnil⟩ := (@matchElements_chars [x] _ _ _ []).1 h
    rw [matchElements] at hnil
    cases hnil
    exact ⟨[], rfl⟩
  | cons e es ih =>
    cases e with
    | char c =>
      obtain ⟨_, m', _, rfl, hrest⟩ := (@matchElements_chars [c] _ _ _ _).1 h
      obtain ⟨xs, rfl⟩ := ih hrest
      exact ⟨c :: xs, rfl⟩
    | blanks =>
      obtain ⟨gap, _, m', _, _, rfl, hrest⟩ := matchElements_blanks h
      obtain ⟨xs, rfl⟩ := ih hrest
      exact ⟨gap ++ xs, (List.append_assoc ..).symm⟩

/-- Two texts of equally many characters that are no blanks end alike, if the one is the start of the other and both
end in such a character. -/
theorem eq_of_countP {x : Char} (hx : Text.isBlank x = false) {xs ys : List Char} (hstarts : xs ++ [x] <+: ys ++ [x])
    (hcount : (xs ++ [x]).countP (fun c => !Text.isBlank c) = (ys ++ [x]).countP fun c => !Text.isBlank c) :
    xs ++ [x] = ys ++ [x] := by
  obtain ⟨zs, hzs⟩ := hstarts
  rw [← hzs] at hcount
  have hnone : zs.countP (fun c => !Text.isBlank c) = 0 := by
    simp only [List.countP_append] at hcount
    omega
  rcases List.eq_nil_or_concat zs with rfl | ⟨zs, z, rfl⟩
  · rwa [List.append_nil] at hzs
  · rw [List.concat_eq_append, ← List.append_assoc] at hzs
    obtain ⟨_, hz⟩ := List.append_inj' hzs rfl
    obtain rfl := List.singleton_inj.1 hz
    simp [hx] at hnone

/-- The blanks of a match do not depend on what comes behind it: its last character is the same one of those that are
no blanks. -/
theorem matchElements_append {es : List Element} {x : Char} (hx : Text.isBlank x = false) {cs m r : List Char}
    (h : matchElements (es ++ [.char x]) cs = some (m, r)) (ys : List Char) :
    matchElements (es ++ [.char x]) (cs ++ ys) = some (m, r ++ ys) := by
  obtain ⟨⟨m', r'⟩, h'⟩ := Option.isSome_iff_exists.1 (isSome_matchElements_append (by rw [h]; rfl) ys)
  have heq := eq_of_matchElements h
  have heq' := eq_of_matchElements h'
  have hcount := (countP_of_matchElements h).trans (countP_of_matchElements h').symm
  obtain ⟨xs, rfl⟩ := last_of_matchElements h
  obtain ⟨xs', rfl⟩ := last_of_matchElements h'
  rw [heq, List.append_assoc] at heq'
  have hsame : xs ++ [x] = xs' ++ [x] := by
    rcases List.prefix_or_prefix_of_prefix ⟨_, rfl⟩ ⟨_, heq'.symm⟩ with hle | hle
    · exact eq_of_countP hx hle hcount
    · exact (eq_of_countP hx hle hcount.symm).symm
  rw [← hsame] at heq'
  rw [h', ← hsame, ← List.append_cancel_left heq']

/-- A call in a text: where its name starts, and where the parenthesis that ends it stands. -/
structure Site where
  start : Nat
  stop : Nat
  deriving DecidableEq

namespace Site

def shift (k : Nat) (s : Site) : Site := ⟨s.start + k, s.stop + k⟩

/-- The one call is over before the other starts, or is inside of it. -/
def Apart (s t : Site) : Prop :=
  s.stop < t.start ∨ t.stop < s.start ∨ (s.start < t.start ∧ t.stop < s.stop) ∨ (t.start < s.start ∧ s.stop < t.stop)

/-- The call whose pattern finds a match at its start ends with the parenthesis that matches the one the match ends in. -/
def Closes (s : Site) (cs : List Char) (m : Match) : Prop := ∃ callee k, m.text = callee ++ ['('] ∧
  Text.matchingParen (cs.drop (s.start + callee.length)) = some k ∧ s.stop = s.start + callee.length + k

/-- A pattern of a call matches at the site, behind neither a dot nor an `await`. -/
structure Calls (names : List String) (cs : List Char) (s : Site) : Prop where
  closed : ∃ p ∈ callPatterns names, ∃ m, p.matchStart (cs.drop s.start) = some m ∧ s.Closes cs m
  boundary : atBoundary (cs.take s.start).reverse (cs.drop s.start) = true
  plain : Text.followsDot (cs.take s.start).reverse = false
  unawaited : Text.followsWord "await" (cs.take s.start).reverse = false

/-- The first call that is found from position `i` on. It is code, no member, closed and not awaited yet. -/
structure Leads (names : List String) (spans : List Text.Span) (cs : List Char) (i : Nat) (s : Site) : Prop where
  le : i ≤ s.start
  first : ∀ j, i ≤ j → j < s.start → firstMatch (callPatterns names) (cs.take j).reverse (cs.drop j) = none
  closed : ∃ m, firstMatch (callPatterns names) (cs.take s.start).reverse (cs.drop s.start) = some m ∧ s.Closes cs m
  code : Text.inSpans spans s.start = false
  plain : Text.followsDot (cs.take s.start).reverse = false
  unawaited : Text.followsWord "await" (cs.take s.start).reverse = false

end Site

/-- The text with a call awaited at each site, from position `i` on. Of each character it says whether it was put in. -/
def edits (sites : Finset Site) (i : Nat) : List Char → List (Char × Bool)
  | [] => []
  | c :: cs => (if ∃ s ∈ sites, s.start = i then "(await ".toList.map (·, true) else []) ++
      (c, false) :: (if ∃ s ∈ sites, s.stop = i then [(')', true)] else []) ++ edits sites (i + 1) cs

theorem map_filter_edits (sites : Finset Site) (i : Nat) (cs : List Char) :
    ((edits sites i cs).filter fun e => !e.2).map (·.1) = cs := by
  induction cs generalizing i with
  | nil => rfl
  | cons c cs ih =>
    rw [edits, List.filter_append, List.filter_append, List.map_append, List.map_append, ih, List.filter_cons_of_pos rfl]
    split <;> split <;> simp

section

variable {sites sites' : Finset Site} {i : Nat} {cs : List Char}

theorem edits_append (xs ys : List Char) :
    edits sites i (xs ++ ys) = edits sites i xs ++ edits sites (i + xs.length) ys := by
  induction xs generalizing i with
  | nil => rfl
  | cons x xs ih =>
    rw [List.cons_append, edits, edits, ih, List.length_cons, Nat.add_right_comm, ← Nat.add_assoc]
    simp only [List.append_assoc]

theorem edits_congr (h : ∀ s : Site, i ≤ s.start ∧ s.start < i + cs.length ∨ i ≤ s.stop ∧ s.stop < i + cs.length →
    (s ∈ sites ↔ s ∈ sites')) : edits sites i cs = edits sites' i cs := by
  induction cs generalizing i with
  | nil => rfl
  | cons c cs ih =>
    rw [List.length_cons] at h
    have hstart : (∃ s ∈ sites, s.start = i) ↔ ∃ s ∈ sites', s.start = i :=
      exists_congr fun s => and_congr_left fun heq => h s (.inl (by omega))
    have hstop : (∃ s ∈ sites, s.stop = i) ↔ ∃ s ∈ sites', s.stop = i :=
      exists_congr fun s => and_congr_left fun heq => h s (.inr (by omega))
    rw [edits, edits, ih fun s hs => h s (by omega), if_congr hstart rfl rfl, if_congr hstop rfl rfl]

theorem edits_image_shift (k : Nat) : edits (sites.image (Site.shift k)) (i + k) cs = edits sites i cs := by
  induction cs generalizing i with
  | nil => rfl
  | cons c cs ih =>
    have hstart : (∃ s ∈ sites.image (Site.shift k), s.start = i + k) ↔ ∃ s ∈ sites, s.start = i := by
      simp [Site.shift]
    have hstop : (∃ s ∈ sites.image (Site.shift k), s.stop = i + k) ↔ ∃ s ∈ sites, s.stop = i := by
      simp [Site.shift]
    rw [edits, edits, Nat.add_right_comm, ih, if_congr hstart rfl rfl, if_congr hstop rfl rfl]

theorem edits_empty (i : Nat) (cs : List Char) : (edits ∅ i cs).map (·.1) = cs := by
  induction cs generalizing i with
  | nil => rfl
  | cons c cs ih => simp [edits, ih]

theorem edits_of_free
    (h : ∀ s ∈ sites, (s.start < i ∨ i + cs.length ≤ s.start) ∧ (s.stop < i ∨ i + cs.length ≤ s.stop)) :
    (edits sites i cs).map (·.1) = cs := by
  have hnone : edits sites i cs = edits ∅ i cs := by
    refine edits_congr fun s htouch => ⟨fun hs => ?_, by simp⟩
    have := h s hs
    omega
  rw [hnone, edits_empty]

theorem edits_of_start (hstart : ∃ s ∈ sites, s.start = i) (hcs : cs ≠ [])
    (h : ∀ s ∈ sites, (s.start ≤ i ∨ i + cs.length ≤ s.start) ∧ (s.stop < i ∨ i + cs.length ≤ s.stop)) :
    (edits sites i cs).map (·.1) = "(await ".toList ++ cs := by
  obtain ⟨c, cs, rfl⟩ := List.exists_cons_of_ne_nil hcs
  rw [List.length_cons] at h
  have hstop : ¬∃ s ∈ sites, s.stop = i := by
    rintro ⟨s, hs, heq⟩
    have := h s hs
    omega
  rw [edits, if_pos hstart, if_neg hstop, List.map_append, List.map_append, edits_of_free fun s hs => ?_]
  · simp
  · have := h s hs
    omega

theorem edits_of_stop {c : Char} (hstart : ¬∃ s ∈ sites, s.start = i) (hstop : ∃ s ∈ sites, s.stop = i) :
    (edits sites i [c]).map (·.1) = [c, ')'] := by
  rw [edits, if_neg hstart, if_pos hstop]
  rfl

end

theorem drop_reverse_append (before cs : List Char) : (before.reverse ++ cs).drop before.length = cs :=
  List.drop_left' before.length_reverse

theorem reverse_take_reverse_append (before cs : List Char) :
    ((before.reverse ++ cs).take before.length).reverse = before := by
  rw [List.take_left' before.length_reverse, List.reverse_reverse]

theorem exists_of_firstMatch {patterns : List Pattern} {before cs : List Char} {m : Match}
    (h : firstMatch patterns before cs = some m) :
    atBoundary before cs = true ∧ ∃ p ∈ patterns, p.matchStart cs = some m := by
  unfold firstMatch at h
  split at h
  · next hboundary => exact ⟨hboundary, List.exists_of_findSome?_eq_some h⟩
  · cases h

theorem exists_callee {names : List String} {before cs : List Char} {m : Match}
    (h : firstMatch (callPatterns names) before cs = some m) : ∃ callee, m.text = callee ++ ['('] := by
  obtain ⟨_, p, hp, hm⟩ := exists_of_firstMatch h
  obtain ⟨name, _, rfl⟩ := mem_callPatterns.1 hp
  obtain ⟨⟨text, rest⟩, hmatch, rfl⟩ := Option.map_eq_some_iff.1 hm
  exact last_of_matchElements hmatch

theorem matchingParen_of_splitParen {cs args rest : List Char} (h : splitParen cs = some (args, rest)) :
    Text.matchingParen ('(' :: cs) = some (args.length + 1) := by
  obtain ⟨n, hn, heq⟩ := Option.map_eq_some_iff.1 h
  have hargs : args.length = n := by
    rw [← (Prod.mk.inj heq).1, List.length_take, Nat.min_eq_left (Nat.le_of_lt (length_of_parenDistance hn))]
  rw [Text.matchingParen_paren, hn, hargs]
  rfl

theorem Site.closes_iff {s : Site} {cs callee : List Char} {m : Match} {k : Nat} (hm : m.text = callee ++ ['('])
    (hk : Text.matchingParen (cs.drop (s.start + callee.length)) = some k) :
    s.Closes cs m ↔ s.stop = s.start + callee.length + k := by
  refine ⟨?_, fun hstop => ⟨callee, k, hm, hk, hstop⟩⟩
  rintro ⟨callee', k', hm', hk', hstop⟩
  obtain ⟨rfl, _⟩ := List.append_inj' (hm.symm.trans hm') rfl
  rw [hk] at hk'
  cases hk'
  exact hstop

theorem Site.Closes.start_lt_stop {s : Site} {cs : List Char} {m : Match} (h : s.Closes cs m)
    (hm : cs.drop s.start = m.text ++ m.rest) : s.start < s.stop ∧ s.stop < cs.length := by
  obtain ⟨callee, k, hcallee, hk, hstop⟩ := h
  have hlength := length_of_parenDistance hk
  rw [hcallee, List.append_assoc] at hm
  rw [← List.drop_drop, hm, List.drop_left, List.singleton_append, Text.matchingParen_paren] at hk
  obtain ⟨n, _, rfl⟩ := Option.map_eq_some_iff.1 hk
  rw [List.length_drop] at hlength
  omega

section

variable {before : List Char} (after : List Char)

theorem followsDot_paren : Text.followsDot (before ++ '(' :: after) = Text.followsDot before := by
  rw [Text.followsDot, Text.followsDot, List.dropWhile_append]
  cases before.dropWhile Text.isBlank <;> rfl

theorem followsWord_paren (h : Text.followsWord "await" before = false) :
    Text.followsWord "await" (before ++ '(' :: after) = false := by
  rw [Bool.eq_false_iff] at h ⊢
  intro hparen
  refine h (followsWord_iff.2 ?_)
  obtain ⟨rest, hrest, hpart⟩ := followsWord_iff.1 hparen
  have hletters : '(' ∉ "await".toList.reverse := by decide
  rw [List.dropWhile_append] at hrest
  split at hrest
  · rw [List.dropWhile_cons_of_neg (by decide)] at hrest
    cases hrest
  · rcases List.append_eq_append_iff.1 hrest with ⟨xs, hxs, hparen⟩ | ⟨xs, hxs, hparen⟩
    · cases xs with
      | nil => exact ⟨[], by rw [hxs, List.append_nil, List.append_nil], rfl⟩
      | cons x xs =>
        cases hparen
        exact absurd (hxs ▸ List.mem_append_right _ List.mem_cons_self) hletters
    · refine ⟨xs, hxs, ?_⟩
      rw [hparen] at hpart
      cases xs with
      | nil => rfl
      | cons x xs => exact hpart

theorem atBoundary_paren {cs ys : List Char} (hcs : cs ≠ []) :
    atBoundary (before ++ '(' :: after) (cs ++ ys) = atBoundary before cs := by
  obtain ⟨c, cs, rfl⟩ := List.exists_cons_of_ne_nil hcs
  cases before <;> rfl

end

namespace Site.Calls

variable {names : List String} {cs : List Char} {s : Site}

theorem start_lt_stop (h : s.Calls names cs) : s.start < s.stop ∧ s.stop < cs.length := by
  obtain ⟨p, _, m, hm, hclosed⟩ := h.closed
  obtain ⟨⟨text, rest⟩, hmatch, rfl⟩ := Option.map_eq_some_iff.1 hm
  exact hclosed.start_lt_stop (eq_of_matchElements hmatch)

theorem of_firstMatch {before : List Char} {m : Match} (hm : firstMatch (callPatterns names) before cs = some m)
    (hdot : Text.followsDot before = false) (hawait : Text.followsWord "await" before = false)
    (hstart : s.start = before.length) (hclosed : s.Closes (before.reverse ++ cs) m) :
    s.Calls names (before.reverse ++ cs) := by
  obtain ⟨hboundary, p, hp, hmatch⟩ := exists_of_firstMatch hm
  have hbehind : (before.reverse ++ cs).drop s.start = cs := hstart ▸ drop_reverse_append before cs
  have hfront : ((before.reverse ++ cs).take s.start).reverse = before :=
    hstart ▸ reverse_take_reverse_append before cs
  exact ⟨⟨p, hp, m, by rw [hbehind, hmatch], hclosed⟩, by rw [hfront, hbehind, hboundary], by rw [hfront, hdot],
    by rw [hfront, hawait]⟩

theorem inParens (h : s.Calls names cs) (xs ys : List Char) :
    (s.shift (xs.length + 1)).Calls names (xs ++ '(' :: (cs ++ ys)) := by
  obtain ⟨hlt, hstop⟩ := h.start_lt_stop
  have hdrop : ∀ n ≤ cs.length, (xs ++ '(' :: (cs ++ ys)).drop (n + (xs.length + 1)) = cs.drop n ++ ys := by
    intro n hn
    rw [Nat.add_comm, ← List.drop_drop, List.append_cons, List.drop_left' (by simp), List.drop_append_of_le_length hn]
  have htake : ((xs ++ '(' :: (cs ++ ys)).take (s.start + (xs.length + 1))).reverse =
      (cs.take s.start).reverse ++ '(' :: xs.reverse := by
    rw [List.append_cons, Nat.add_comm, List.take_append, List.take_of_length_le (by simp)]
    simp [List.take_append_of_le_length (Nat.le_of_lt (Nat.lt_trans hlt hstop))]
  have hne : cs.drop s.start ≠ [] := by
    rw [Ne, List.drop_eq_nil_iff]
    omega
  refine ⟨?_, ?_, ?_, ?_⟩
  · obtain ⟨p, hp, m, hm, callee, k, hcallee, hk, heq⟩ := h.closed
    obtain ⟨⟨text, rest⟩, hmatch, rfl⟩ := Option.map_eq_some_iff.1 hm
    obtain ⟨name, _, rfl⟩ := mem_callPatterns.1 hp
    have hmatch' := matchElements_append (x := '(') (by decide) hmatch ys
    refine ⟨_, hp, ⟨(callPattern name).name, text, rest ++ ys⟩, ?_, callee, k, hcallee, ?_, ?_⟩
    · rw [shift, hdrop _ (by omega), Pattern.matchStart]
      exact Option.map_eq_some_iff.2 ⟨_, hmatch', rfl⟩
    · rw [shift, Nat.add_right_comm, hdrop _ (by omega)]
      exact parenDistance_append hk ys
    · simp only [shift, heq]
      omega
  · rw [shift, htake, hdrop _ (by omega), atBoundary_paren _ hne, h.boundary]
  · rw [shift, htake, followsDot_paren, h.plain]
  · rw [shift, htake, followsWord_paren _ h.unawaited]

end Site.Calls

/-- What sequencing does to the rest of a text, given the text before it: it awaits the calls at the sites. -/
structure Sited (names : List String) (spans : List Text.Span) (before cs : List Char) (sites : Finset Site) : Prop where
  calls : ∀ s ∈ sites, s.Calls names (before.reverse ++ cs)
  le : ∀ s ∈ sites, before.length ≤ s.start
  apart : ∀ s ∈ sites, ∀ t ∈ sites, s ≠ t → s.Apart t
  text : (edits sites before.length cs).map (·.1) =
    sequenceFrom (callPatterns names) spans before.length before cs
  leads : ∀ s : Site, s.Leads names spans (before.reverse ++ cs) before.length → s ∈ sites

theorem Site.Leads.eq_start {names : List String} {spans : List Text.Span} {before cs : List Char} {m : Match} {s : Site}
    (h : s.Leads names spans (before.reverse ++ cs) before.length)
    (hm : firstMatch (callPatterns names) before cs = some m) : s.start = before.length ∧ s.Closes (before.reverse ++ cs) m := by
  have hstart : s.start = before.length := by
    refine Nat.le_antisymm (Nat.le_of_not_lt fun hlt => ?_) h.le
    have hnone := h.first before.length (Nat.le_refl _) hlt
    rw [reverse_take_reverse_append, drop_reverse_append, hm] at hnone
    cases hnone
  obtain ⟨m', hm', hclosed⟩ := h.closed
  rw [hstart, reverse_take_reverse_append, drop_reverse_append, hm] at hm'
  cases hm'
  exact ⟨hstart, hclosed⟩

namespace Sited

variable {names : List String} {spans : List Text.Span} {before cs : List Char} {sites : Finset Site}

theorem copy {xs : List Char} (h : Sited names spans (xs.reverse ++ before) cs sites)
    (htext : sequenceFrom (callPatterns names) spans before.length before (xs ++ cs) =
      xs ++ sequenceFrom (callPatterns names) spans (before.length + xs.length) (xs.reverse ++ before) cs)
    (hleads : ∀ s : Site, s.Leads names spans (before.reverse ++ (xs ++ cs)) before.length →
      before.length + xs.length ≤ s.start) :
    Sited names spans before (xs ++ cs) sites := by
  have hlength : (xs.reverse ++ before).length = before.length + xs.length := by simp [Nat.add_comm]
  have hwhole : (xs.reverse ++ before).reverse ++ cs = before.reverse ++ (xs ++ cs) := by simp
  obtain ⟨hcalls, hle, hapart, hsites, hfirst⟩ := h
  rw [hwhole] at hcalls hfirst
  rw [hlength] at hle hsites hfirst
  refine ⟨hcalls, fun s hs => by have := hle s hs; omega, hapart, ?_, fun s hs => hfirst s ?_⟩
  · rw [edits_append, List.map_append, hsites, htext,
      edits_of_free fun s hs => ?_]
    have := (hcalls s hs).start_lt_stop
    have := hle s hs
    omega
  · have hstart := hleads s hs
    exact ⟨hstart, fun j hj hlt => hs.first j (by omega) hlt, hs.closed, hs.code, hs.plain, hs.unawaited⟩

theorem done : Sited names spans before [] ∅ := by
  refine ⟨by simp, by simp, by simp, by rw [sequenceFrom_end]; rfl, fun s hs => ?_⟩
  obtain ⟨m, hm, _⟩ := hs.closed
  have hle := hs.le
  rw [List.drop_of_length_le (by simpa using hle)] at hm
  obtain ⟨heq, hlength⟩ := eq_of_firstMatch hm
  rw [(List.append_eq_nil_iff.1 heq.symm).1] at hlength
  cases hlength

theorem unclosed {m : Match} (hm : firstMatch (callPatterns names) before cs = some m)
    (hskip : (Text.inSpans spans before.length || Text.followsDot before) = false) (hsplit : splitParen m.rest = none) :
    Sited names spans before cs ∅ := by
  refine ⟨by simp, by simp, by simp, by rw [edits_empty, sequenceFrom_unclosed hm hskip hsplit], fun s hs => ?_⟩
  obtain ⟨hstart, callee, k, hcallee, hk, _⟩ := hs.eq_start hm
  rw [hstart, ← List.drop_drop, drop_reverse_append, (eq_of_firstMatch hm).1, hcallee, List.append_assoc,
    List.drop_left, List.singleton_append, Text.matchingParen_paren] at hk
  rw [splitParen, Option.map_eq_none_iff] at hsplit
  rw [hsplit] at hk
  cases hk

section

variable {args rest : List Char} {inner outer : Finset Site}

/-- The sites of a call, of its arguments and of the text behind it. -/
def around (before callee args : List Char) (inner outer : Finset Site) : Finset Site :=
  inner.image (Site.shift (before.length + callee.length + 1)) ∪ outer ∪
    if Text.followsWord "await" before then ∅ else {⟨before.length, before.length + callee.length + (args.length + 1)⟩}

theorem mem_around {callee : List Char} {s : Site} : s ∈ around before callee args inner outer ↔
    (∃ t ∈ inner, t.shift (before.length + callee.length + 1) = s) ∨ s ∈ outer ∨
      Text.followsWord "await" before = false ∧ s = ⟨before.length, before.length + callee.length + (args.length + 1)⟩ := by
  rw [around, Finset.mem_union, Finset.mem_union, Finset.mem_image, or_assoc]
  split
  · next h => simp [h]
  · next h => simp [h]

variable {callee : List Char} (hinside : ∀ s ∈ inner, s.start < s.stop ∧ s.stop < args.length)
  (houtside : ∀ s ∈ outer, s.start < s.stop ∧ before.length + (callee.length + args.length + 2) ≤ s.start)

include hinside houtside

theorem around_cases {s : Site} (hs : s ∈ around before callee args inner outer) :
    (∃ t ∈ inner, t.shift (before.length + callee.length + 1) = s ∧ before.length + callee.length < s.start ∧
      s.start < s.stop ∧ s.stop < before.length + callee.length + 1 + args.length) ∨
    (s ∈ outer ∧ before.length + (callee.length + args.length + 2) ≤ s.start ∧ s.start < s.stop) ∨
    (Text.followsWord "await" before = false ∧ s.start = before.length ∧
      s.stop = before.length + callee.length + (args.length + 1)) := by
  rcases mem_around.1 hs with ⟨t, ht, rfl⟩ | hs | ⟨hawait, rfl⟩
  · have := hinside t ht
    refine .inl ⟨t, ht, rfl, ?_⟩
    simp only [Site.shift]
    omega
  · exact .inr (.inl ⟨hs, (houtside s hs).2, (houtside s hs).1⟩)
  · exact .inr (.inr ⟨hawait, rfl, rfl⟩)

theorem apart_around (hinner : ∀ s ∈ inner, ∀ t ∈ inner, s ≠ t → s.Apart t)
    (houter : ∀ s ∈ outer, ∀ t ∈ outer, s ≠ t → s.Apart t) {s t : Site}
    (hs : s ∈ around before callee args inner outer) (ht : t ∈ around before callee args inner outer) (hne : s ≠ t) :
    s.Apart t := by
  rcases around_cases hinside houtside hs with ⟨s', hs', rfl, _⟩ | ⟨hs', _⟩ | ⟨_, hstart, hstop⟩ <;>
    rcases around_cases hinside houtside ht with ⟨t', ht', rfl, _⟩ | ⟨ht', _⟩ | ⟨_, hstart', hstop'⟩
  case inl.inl =>
    have hapart := hinner s' hs' t' ht' fun heq => hne (heq ▸ rfl)
    simp only [Site.Apart, Site.shift] at hapart ⊢
    omega
  case inr.inl.inr.inl => exact houter s hs' t ht' hne
  case inr.inr.inr.inr =>
    cases s
    cases t
    exact absurd (by rw [Site.mk.injEq]; exact ⟨hstart.trans hstart'.symm, hstop.trans hstop'.symm⟩) hne
  all_goals
    simp only [Site.Apart]
    omega

theorem edits_around : (edits (around before callee args inner outer) before.length
      (callee ++ ['('] ++ (args ++ ([')'] ++ rest)))).map (·.1) =
    awaitCall (Text.followsWord "await" before) (callee ++ ['(']) ((edits inner 0 args).map (·.1)) ++
      (edits outer (before.length + (callee.length + args.length + 2)) rest).map (·.1) := by
  have hcases := fun s (hs : s ∈ around before callee args inner outer) => around_cases hinside houtside hs
  have hargs : edits (around before callee args inner outer) (before.length + (callee.length + 1)) args =
      edits inner 0 args := by
    rw [← @edits_image_shift inner 0 args (before.length + callee.length + 1), Nat.zero_add, Nat.add_assoc]
    refine edits_congr fun s htouch => ⟨fun hs => ?_, fun hs => ?_⟩
    · rcases hcases s hs with ⟨t, ht, rfl, _⟩ | ⟨_, _⟩ | ⟨_, _⟩
      · exact Finset.mem_image_of_mem _ ht
      · omega
      · omega
    · exact mem_around.2 (.inl (Finset.mem_image.1 hs))
  have hrest : edits (around before callee args inner outer) (before.length + (callee.length + args.length + 2)) rest =
      edits outer (before.length + (callee.length + args.length + 2)) rest := by
    refine edits_congr fun s htouch => ⟨fun hs => ?_, fun hs => mem_around.2 (.inr (.inl hs))⟩
    rcases hcases s hs with ⟨_, _, rfl, _⟩ | ⟨hs, _⟩ | ⟨_, _⟩
    · omega
    · exact hs
    · omega
  have hlength : (callee ++ ['(']).length = callee.length + 1 := by simp
  have hstop : before.length + (callee.length + 1) + args.length =
      before.length + callee.length + (args.length + 1) := by omega
  have hbehind : before.length + callee.length + (args.length + 1) + [')'].length =
      before.length + (callee.length + args.length + 2) := by
    rw [List.length_singleton]
    omega
  rw [edits_append (callee ++ ['(']), edits_append args, edits_append [')'], hlength, hstop, hbehind, hargs, hrest]
  simp only [List.map_append, awaitCall]
  cases hawait : Text.followsWord "await" before with
  | true =>
    rw [hawait] at hcases
    have hopening : (edits (around before callee args inner outer) before.length (callee ++ ['('])).map (·.1) =
        callee ++ ['('] := by
      refine edits_of_free fun s hs => ?_
      rw [hlength]
      rcases hcases s hs with ⟨_, _, _, _⟩ | ⟨_, _⟩ | ⟨⟨⟩, _⟩ <;> omega
    have hclosing : (edits (around before callee args inner outer)
        (before.length + callee.length + (args.length + 1)) [')']).map (·.1) = [')'] := by
      refine edits_of_free fun s hs => ?_
      rw [List.length_singleton]
      rcases hcases s hs with ⟨_, _, _, _⟩ | ⟨_, _⟩ | ⟨⟨⟩, _⟩ <;> omega
    rw [if_pos rfl, hopening, hclosing]
    simp
  | false =>
    obtain ⟨own, hown, hstart, hstop⟩ : ∃ s ∈ around before callee args inner outer, s.start = before.length ∧
        s.stop = before.length + callee.length + (args.length + 1) :=
      ⟨_, mem_around.2 (.inr (.inr ⟨hawait, rfl⟩)), rfl, rfl⟩
    rw [if_neg Bool.false_ne_true, edits_of_start ⟨own, hown, hstart⟩ (by simp), edits_of_stop _ ⟨own, hown, hstop⟩]
    · simp
    · rintro ⟨s, hs, heq⟩
      rcases hcases s hs with ⟨_, _, _, _⟩ | ⟨_, _⟩ | ⟨_, _⟩ <;> omega
    · intro s hs
      rw [hlength]
      rcases hcases s hs with ⟨_, _, _, _⟩ | ⟨_, _⟩ | ⟨_, _⟩ <;> omega

end

theorem call {m : Match} {callee args rest : List Char} {inner outer : Finset Site}
    (hm : firstMatch (callPatterns names) before cs = some m)
    (hskip : (Text.inSpans spans before.length || Text.followsDot before) = false)
    (hsplit : splitParen m.rest = some (args, rest)) (hcallee : m.text = callee ++ ['('])
    (hinner : Sited names (Text.nonCodeSpans args) [] args inner)
    (houter : Sited names spans ((cs.take (m.text.length + args.length + 1)).reverse ++ before) rest outer) :
    Sited names spans before cs (around before callee args inner outer) := by
  have hcs : cs = callee ++ '(' :: (args ++ ')' :: rest) := by
    rw [(eq_of_firstMatch hm).1, hcallee, eq_of_splitParen hsplit]
    simp
  have hlength : m.text.length + args.length + 1 = callee.length + args.length + 2 := by
    rw [hcallee, List.length_append, List.length_singleton]
    omega
  have htake : cs.take (callee.length + args.length + 2) = callee ++ '(' :: (args ++ [')']) := by
    rw [hcs, show callee ++ '(' :: (args ++ ')' :: rest) = callee ++ '(' :: (args ++ [')']) ++ rest by simp]
    exact List.take_left' (by simp; omega)
  rw [hlength, htake] at houter
  have hwhole : ((callee ++ '(' :: (args ++ [')'])).reverse ++ before).reverse ++ rest = before.reverse ++ cs := by
    simp [hcs]
  have hmatching : Text.matchingParen ((before.reverse ++ cs).drop (before.length + callee.length)) =
      some (args.length + 1) := by
    rw [eq_of_splitParen hsplit] at hsplit
    rw [← List.drop_drop, drop_reverse_append, hcs, List.drop_left, matchingParen_of_splitParen hsplit]
  have hcloses : ∀ s : Site, s.start = before.length → (s.Closes (before.reverse ++ cs) m ↔
      s.stop = before.length + callee.length + (args.length + 1)) := fun s hstart =>
    hstart ▸ Site.closes_iff hcallee (hstart ▸ hmatching)
  have hinside : ∀ s ∈ inner, s.start < s.stop ∧ s.stop < args.length := fun s hs => (hinner.calls s hs).start_lt_stop
  have houtside : ∀ s ∈ outer, s.start < s.stop ∧ before.length + (callee.length + args.length + 2) ≤ s.start := by
    intro s hs
    have hle := houter.le s hs
    have hlt := (houter.calls s hs).start_lt_stop
    simp only [List.length_append, List.length_reverse, List.length_cons] at hle
    omega
  refine ⟨fun s hs => ?_, fun s hs => ?_, fun s hs t ht hne => ?_, ?_, fun s hs => ?_⟩
  · rcases mem_around.1 hs with ⟨t, ht, rfl⟩ | hs | ⟨hawait, rfl⟩
    · have hcalls := (hinner.calls t ht).inParens (before.reverse ++ callee) (')' :: rest)
      simpa [hcs] using hcalls
    · exact hwhole ▸ houter.calls s hs
    · rw [Bool.or_eq_false_iff] at hskip
      exact .of_firstMatch hm hskip.2 hawait rfl ((hcloses _ rfl).2 rfl)
  · rcases mem_around.1 hs with ⟨t, _, rfl⟩ | hs | ⟨_, rfl⟩
    · simp only [Site.shift]
      omega
    · have := houtside s hs
      omega
    · exact Nat.le_refl _
  · exact apart_around hinside houtside hinner.apart houter.apart hs ht hne
  · have hbehind : ((callee ++ '(' :: (args ++ [')'])).reverse ++ before).length =
        before.length + (callee.length + args.length + 2) := by
      simp only [List.length_append, List.length_reverse, List.length_cons, List.length_nil]
      omega
    have hpieces : cs = callee ++ ['('] ++ (args ++ ([')'] ++ rest)) := by simp [hcs]
    have hrest := houter.text
    rw [hbehind] at hrest
    have hargs : _ = sequenceFrom (callPatterns names) (Text.nonCodeSpans args) 0 [] args := hinner.text
    rw [sequenceFrom_call hm hskip hsplit, hlength, htake, hcallee, ← hrest, ← hargs]
    conv_lhs => rw [hpieces]
    exact edits_around hinside houtside
  · obtain ⟨hstart, hstop⟩ := hs.eq_start hm
    have hawait := hs.unawaited
    rw [hstart, reverse_take_reverse_append] at hawait
    rw [hcloses s hstart] at hstop
    refine mem_around.2 (.inr (.inr ⟨hawait, ?_⟩))
    cases s
    cases hstart
    cases hstop
    rfl

theorem exists_sited (names : List String) : ∀ (cs before : List Char) (spans : List Text.Span),
    ∃ sites, Sited names spans before cs sites := by
  intro cs
  induction hlength : cs.length using Nat.strongRecOn generalizing cs with
  | _ n ih =>
    subst hlength
    intro before spans
    cases hm : firstMatch (callPatterns names) before cs with
    | none =>
      cases cs with
      | nil => exact ⟨∅, done⟩
      | cons c cs =>
        obtain ⟨sites, h⟩ := ih cs.length (by simp) cs rfl (c :: before) spans
        refine ⟨sites, @copy _ _ _ _ _ [c] h (sequenceFrom_none hm) fun s hs => ?_⟩
        refine Nat.lt_of_le_of_ne hs.le fun hstart => ?_
        obtain ⟨m, hfirst, _⟩ := hs.closed
        rw [← hstart, reverse_take_reverse_append, drop_reverse_append, List.singleton_append, hm] at hfirst
        cases hfirst
    | some m =>
      obtain ⟨heq, hpos⟩ := eq_of_firstMatch hm
      cases hskip : Text.inSpans spans before.length || Text.followsDot before with
      | true =>
        obtain ⟨sites, h⟩ := ih m.rest.length (by grind) m.rest rfl (m.text.reverse ++ before) spans
        have htext := sequenceFrom_skip hm hskip
        rw [heq] at htext
        refine ⟨sites, heq ▸ h.copy htext fun s hs => ?_⟩
        rw [← heq] at hs
        have hcode := hs.code
        have hplain := hs.plain
        rw [(hs.eq_start hm).1] at hcode hplain
        rw [reverse_take_reverse_append] at hplain
        rw [hcode, hplain] at hskip
        cases hskip
      | false =>
        cases hsplit : splitParen m.rest with
        | none => exact ⟨∅, unclosed hm hskip hsplit⟩
        | some split =>
          obtain ⟨args, rest⟩ := split
          have hshorter := length_of_splitParen hsplit
          have hlength := congrArg List.length heq
          rw [List.length_append] at hlength
          obtain ⟨inner, hinner⟩ := ih args.length (by omega) args rfl [] (Text.nonCodeSpans args)
          obtain ⟨outer, houter⟩ := ih rest.length (by omega) rest rfl
            ((cs.take (m.text.length + args.length + 1)).reverse ++ before) spans
          obtain ⟨callee, hcallee⟩ := exists_callee hm
          exact ⟨_, call hm hskip hsplit hcallee hinner houter⟩

end Sited

/-- Sequencing only puts text in: `(await ` in front of some calls, each inside the parentheses of another or apart from
it, and `)` behind them. The first call of a text that is code, no member, closed and not awaited yet is one of them. -/
theorem sequenceCalls_sites (names : List String) (cs : List Char) : ∃ sites : Finset Site,
    (∀ s ∈ sites, s.Calls names cs) ∧ (∀ s ∈ sites, ∀ t ∈ sites, s ≠ t → s.Apart t) ∧
    sequenceCalls names cs = (edits sites 0 cs).map (·.1) ∧
    ((edits sites 0 cs).filter fun e => !e.2).map (·.1) = cs ∧
    ∀ s : Site, s.Leads names (Text.nonCodeSpans cs) cs 0 → s ∈ sites := by
  obtain ⟨sites, h⟩ := Sited.exists_sited names cs [] (Text.nonCodeSpans cs)
  exact ⟨sites, h.calls, h.apart, h.text.symm, map_filter_edits sites 0 cs, h.leads⟩

end LiveSheet.Await
