import Mathlib
import LiveSheet.Proofs.Expr.Reading
import LiveSheet.Proofs.Await.Rewriting
import LiveSheet.Proofs.Await.Templates
import LiveSheet.Proofs.Await.Tokens

/-! Sequencing keeps the meaning of clear texts. What it makes of one is read as the program of the
text with every deferred call awaited, and nothing else changed. -/

namespace LiveSheet.Await

theorem Source.Spells.tokenize_chars {names : List String} {src : Source} (h : src.Spells names 0 []) :
    ∃ ts, Token.tokenize src.chars = .ok ts ∧ ts.map (·.token) = src.tokens 0 true ++ [.eof] := by
  have hreads := Source.reads h (fun _ => .nil) none ⟨1, 1⟩
  rwa [List.append_nil] at hreads

/-- The raw text of a clear template, and that of the template with its calls awaited. -/
def AwaitsRaw (names : List String) (raw raw' : String) : Prop := ∃ body : Segments, body.Spells names ∧
  body.Clear names ∧ raw = String.ofList body.raw ∧ raw' = String.ofList body.awaited.raw

theorem Source.Spells.awaits_tokens {names : List String} {src : Source} (hsrc : src.Spells names 0 [])
    (hclear : src.Clear names 0 .other) : ∃ ts us, Token.tokenize src.chars = .ok ts ∧
      ts.map (·.token) = src.tokens 0 true ++ [.eof] ∧ Token.tokenize (src.awaited false).chars = .ok us ∧
      Parser.Awaits names (AwaitsRaw names) [] ts us := by
  obtain ⟨ts, hts, htokens⟩ := hsrc.tokenize_chars
  obtain ⟨us, hus, htokens'⟩ := (hsrc.awaited (.refl []) id false).tokenize_chars
  have hbecomes : Becomes names (AwaitsRaw names) [] (src.tokens 0 true ++ [.eof])
      ((src.awaited false).tokens 0 true ++ [.eof]) :=
    Source.becomes (fun body hbody hinside => ⟨body, hbody, hinside, rfl, rfl⟩) 0 0 true .other hsrc hclear Iff.rfl
      (.cons (by simp) []) (.token rfl .nil)
  exact ⟨ts, us, hts, htokens, hus, hbecomes ts us htokens htokens'⟩

theorem expressionOf_awaited {names : List String} : ∀ {depth depth' : Nat}, depth ≤ depth' → ∀ src : Source,
    src.Spells names 0 [] → src.Clear names 0 .other → src.Overt names → ∀ e,
    Parser.expressionOf depth src.chars = .ok e →
    Parser.expressionOf depth' (src.awaited false).chars = .ok (e.awaitCalls names false) := by
  intro depth
  induction depth with
  | zero =>
    intro depth' _ src _ _ _ e h
    cases h
  | succ depth ih =>
    intro depth' hdepth src hsrc hclear hovert e h
    obtain ⟨depth', rfl⟩ : ∃ k, depth' = k + 1 := ⟨depth' - 1, by omega⟩
    obtain ⟨ts, us, hts, htokens, hus, hawaits⟩ := hsrc.awaits_tokens hclear
    obtain ⟨ts', hts', honly⟩ := Parser.bind_eq_ok.1 h
    rw [hts] at hts'
    cases hts'
    refine Parser.bind_eq_ok.2 ⟨us, hus, ?_⟩
    refine Parser.only_follows ?_ hawaits (hovert ts htokens) honly
    rintro _ _ parts ⟨body, hbody, hinside, rfl, rfl⟩ hparts
    exact body.parts_awaited (ih (by omega)) hbody hinside hparts

mutual

theorem Source.length_awaited : ∀ (src : Source) (await : Bool), src.chars.length ≤ (src.awaited await).chars.length
  | .done _, _ => Nat.le_refl _
  | .leaf gap atom rest, _ => by
    have := Source.length_awaited rest (decide (atom.token = .awaitWord))
    simp only [Source.awaited, Source.chars, List.length_append]
    omega
  | .template gap body rest, _ => by
    have := Segments.length_awaited body
    have := Source.length_awaited rest false
    simp only [Source.awaited, Source.chars, List.length_append, List.length_cons]
    omega
  | .group gap bracket inner rest, _ => by
    have := Source.length_awaited inner false
    have := Source.length_awaited rest false
    simp only [Source.awaited, Source.chars, List.length_append, List.length_cons]
    omega
  | .call gap target args rest, await => by
    have := Source.length_awaited args false
    have := Source.length_awaited rest false
    cases await
    all_goals
      simp only [Source.awaited, Source.chars, Bool.false_eq_true, if_false, if_true, List.length_append,
        List.length_cons]
      omega

theorem Segments.length_awaited : ∀ body : Segments, body.chars.length ≤ body.awaited.chars.length
  | .last _ => Nat.le_refl _
  | .code text inner rest => by
    have := Source.length_awaited inner false
    have := Segments.length_awaited rest
    simp only [Segments.awaited, Segments.chars, List.length_append, List.length_cons]
    omega

end

theorem Source.overt_of_tokens {names : List String} {src : Source}
    (hopening : ∀ t rest, .leftParen :: t :: rest <:+ src.tokens 0 true ++ [.eof] →
      t ≠ .leftParen ∧ ∀ a, t ≠ .identifier a)
    (hawait : ∀ rest, ¬.awaitWord :: .leftParen :: rest <:+ src.tokens 0 true ++ [.eof]) : src.Overt names := by
  intro ts hts
  constructor
  · intro p rest e q r hsuffix hbare
    obtain ⟨t, p', rest, rfl, ht⟩ := hbare.head
    have htokens := hsuffix.map (·.token)
    rw [hts] at htokens
    obtain ⟨hparen, hname⟩ := hopening _ _ htokens
    rcases ht with rfl | ⟨a, rfl⟩
    · exact absurd rfl hparen
    · exact absurd rfl (hname a)
  · intro p q rest hsuffix
    have htokens := hsuffix.map (·.token)
    rw [hts] at htokens
    exact absurd htokens (hawait _)

theorem sequenceCalls_idle {names : List String} (hnames : ∀ name ∈ names, Callable name) {cs : List Char}
    (h : ∀ ys c zs, cs = ys ++ c :: zs → Idle names (Text.nonCodeSpans cs) ys.length ys.reverse (c :: zs)) :
    sequenceCalls names cs = cs := by
  have hidle : ∀ ys c zs, cs = ys ++ c :: zs →
      Idle names (Text.nonCodeSpans cs) (0 + ys.length) (ys.reverse ++ []) (c :: (zs ++ [])) := by
    intro ys c zs heq
    simpa using h ys c zs heq
  have hcopy := sequenceFrom_copy hnames cs 0 [] [] hidle
  rwa [sequenceFrom_end, List.append_nil] at hcopy

def isIdle (names : List String) (cs : List Char) : Bool := (List.range cs.length).all fun i =>
  (firstMatch (callPatterns names) (cs.take i).reverse (cs.drop i)).isNone ||
    (Text.inSpans (Text.nonCodeSpans cs) i || Text.followsDot (cs.take i).reverse)

theorem sequenceCalls_of_isIdle {names : List String} (hnames : ∀ name ∈ names, Callable name) {cs : List Char}
    (h : isIdle names cs = true) : sequenceCalls names cs = cs := by
  refine sequenceCalls_idle hnames fun ys c zs heq m hm => ?_
  have hplace := List.all_eq_true.1 h ys.length (by simp [heq])
  rw [show cs.take ys.length = ys by simp [heq], show cs.drop ys.length = c :: zs by simp [heq], hm] at hplace
  simpa using hplace

/-- A text of pieces in which the pass sees the calls that its program has. -/
def Legible (names : List String) (text : String) : Prop := ∃ src : Source, text.toList = src.chars ∧
  src.Spells names 0 [] ∧ src.Clear names 0 .other ∧ src.Overt names

theorem parse_sequenceCalls {names : List String} (hnames : ∀ name ∈ names, Callable name) {text : String}
    (htext : Legible names text) {p : Program} (h : Program.parse text = .ok p) :
    Program.parse (String.ofList (sequenceCalls names text.toList)) = .ok (p.awaitCalls names) := by
  obtain ⟨src, hchars, hsrc, hclear, hovert⟩ := htext
  obtain ⟨ts, us, hts, htokens, hus, hawaits⟩ := hsrc.awaits_tokens hclear
  have hlength : text.length + 1 ≤ (src.awaited false).chars.length + 1 := by
    rw [← String.length_toList, hchars]
    exact Nat.succ_le_succ (src.length_awaited false)
  rw [hchars, src.sequenceCalls_chars hnames hsrc hclear]
  obtain ⟨ts', hts', hprogram⟩ := Parser.bind_eq_ok.1 h
  rw [hchars, hts] at hts'
  cases hts'
  refine Parser.bind_eq_ok.2 ⟨us, by rwa [String.toList_ofList], ?_⟩
  rw [String.length_ofList]
  refine Parser.program_follows ?_ hawaits (hovert ts htokens) hprogram
  rintro _ _ parts ⟨body, hbody, hinside, rfl, rfl⟩ hparts
  exact body.parts_awaited (expressionOf_awaited hlength) hbody hinside hparts

end LiveSheet.Await

namespace LiveSheet

/-- The names of the integrations and of their operations are identifiers. -/
def IntegrationSet.Plain {σ : Type} (set : IntegrationSet σ) : Prop := ∀ entry ∈ set.byName.toList,
  Await.Identifier entry.2.name.toList ∧ ∀ op ∈ entry.2.operations.toList, Await.Identifier op.1.toList

namespace Await

variable {σ : Type} {set : IntegrationSet σ}

theorem callable_writers : ∀ name ∈ writers, Callable name := by
  intro name hname
  refine Or.inl ?_
  rw [writers, List.mem_cons, List.mem_singleton] at hname
  rcases hname with rfl | rfl <;> exact ⟨by decide, rfl⟩

theorem callable_deferredCalls (hset : set.Plain) (mode : Mode) : ∀ name ∈ deferredCalls set mode, Callable name := by
  have hdeferred : ∀ name ∈ set.deferredCalls, Callable name := by
    intro name hname
    obtain ⟨⟨_, integration⟩, hentry, hname⟩ := List.mem_flatMap.1 hname
    obtain ⟨⟨op, _⟩, hop, rfl⟩ := List.mem_map.1 hname
    obtain ⟨howner, hops⟩ := hset _ hentry
    refine Or.inr ⟨integration.name.toList, op.toList, ?_, howner, hops _ (List.mem_filter.1 hop).1⟩
    rw [String.ofList_toList, String.ofList_toList]
  cases mode with
  | expression => exact hdeferred
  | command =>
    intro name hname
    rcases List.mem_append.1 hname with hname | hname
    · exact hdeferred name hname
    · exact callable_writers name hname

/-- Sequencing a legible text awaits the deferred calls of its program and changes nothing else. -/
theorem parse_sequence (hset : set.Plain) {mode : Mode} {text : String} (htext : Legible (deferredCalls set mode) text)
    {p : Program} (h : Program.parse text = .ok p) :
    Program.parse (sequence set mode text) = .ok (p.awaitCalls (deferredCalls set mode)) :=
  parse_sequenceCalls (callable_deferredCalls hset mode) htext h

def lookup : IntegrationSet Unit := IntegrationSet.empty.register
  ⟨"Integration", NameMap.ofEntries [("get", ⟨true, .host, fun _ s => (.ok .null, s)⟩)]⟩

theorem lookup_plain : lookup.Plain := by
  have hentries : lookup.byName.toList.map (fun entry => (entry.2.name, entry.2.operations.toList.map (·.1))) =
      [("Integration", ["get"])] := by rfl
  intro entry hentry
  have hnames := List.mem_map_of_mem (f := fun entry => (entry.2.name, entry.2.operations.toList.map (·.1))) hentry
  rw [hentries, List.mem_singleton, Prod.mk.injEq] at hnames
  obtain ⟨hname, hops⟩ := hnames
  refine ⟨hname ▸ ⟨by decide, rfl⟩, fun op hop => ?_⟩
  have hop := List.mem_map_of_mem (f := (·.1)) hop
  rw [hops, List.mem_singleton] at hop
  exact hop ▸ ⟨by decide, rfl⟩

theorem parse_sequence_lookup : ∃ p, Program.parse "Integration.get(\x60${name}\x60)" = .ok p ∧
    Program.parse (sequence lookup .expression "Integration.get(\x60${name}\x60)") =
      .ok (p.awaitCalls (deferredCalls lookup .expression)) := by
  have hparse : Program.parse "Integration.get(\x60${name}\x60)" = .ok [.expr (.call
      (.member (.identifier "Integration") "get") [.template [.code (.identifier "name")]])] := by cbv
  have hcalls : deferredCalls lookup .expression = ["Integration.get"] := by rfl
  have howner : Identifier "Integration".toList := ⟨by decide, rfl⟩
  have hget : Identifier "get".toList := ⟨by decide, rfl⟩
  have hblank : Blank [] := List.forall_mem_nil _
  have hname : (Atom.word "name".toList).Fits [] := ⟨⟨'n', _, rfl, by decide⟩, by decide, rfl⟩
  have hovert : (Source.leaf [] (.word "name".toList) (.done [])).Overt (deferredCalls lookup .expression) := by
    refine Source.overt_of_tokens ?_ ?_
    all_goals
      rw [show (Source.leaf [] (.word "name".toList) (.done [])).tokens 0 true ++ [.eof] =
        [.identifier "name", .eof] from rfl]
      simp [List.suffix_cons_iff]
  refine ⟨_, hparse, parse_sequence lookup_plain ⟨.call [] (.path "Integration".toList [] [] "get".toList [])
    (.template [] (.code [] (.leaf [] (.word "name".toList) (.done [])) (.last [])) (.done [])) (.done []),
    rfl, ?_, ?_, ?_⟩ hparse⟩
  · rw [hcalls]
    exact ⟨hblank, ⟨by decide, howner, hget, hblank, hblank, hblank⟩, by decide,
      ⟨hblank, ⟨trivial, ⟨hblank, hname, hblank⟩, rfl, trivial⟩, hblank⟩, hblank⟩
  · refine ⟨by decide, (fun h => by cases h), ⟨⟨by decide, trivial⟩, trivial⟩, ⟨⟨⟨?_, ?_, trivial⟩, hovert, trivial⟩, trivial⟩,
      trivial⟩
    · intro h
      cases h
    · rintro xs ys _ _ _ ⟨⟩
  · refine Source.overt_of_tokens ?_ ?_
    all_goals
      rw [show Source.tokens 0 true _ ++ [.eof] = [.identifier "Integration", .dot, .identifier "get", .leftParen,
        .template "${name}", .rightParen, .eof] from rfl]
      simp [List.suffix_cons_iff]

theorem parse_sequence_remark : ¬∀ (set : IntegrationSet Unit) (mode : Mode) (text : String) (p : Program), set.Plain →
    Program.parse text = .ok p → Program.parse (sequence set mode text) = .ok (p.awaitCalls (deferredCalls set mode)) := by
  intro h
  have hparse : Program.parse "// Fetch the value.\nIntegration.get('k')" =
      .ok [.expr (.call (.member (.identifier "Integration") "get") [.string "k"])] := by cbv
  have hcalls : deferredCalls lookup .expression = ["Integration.get"] := by rfl
  have hsame : sequence lookup .expression "// Fetch the value.\nIntegration.get('k')" =
      "// Fetch the value.\nIntegration.get('k')" := by
    rw [sequence, sequenceCalls_of_isIdle (callable_deferredCalls lookup_plain .expression) (by rw [hcalls]; cbv),
      String.ofList_toList]
  have hawaited := h lookup .expression _ _ lookup_plain hparse
  rw [hsame, hparse, hcalls] at hawaited
  cases hawaited

end Await

end LiveSheet
