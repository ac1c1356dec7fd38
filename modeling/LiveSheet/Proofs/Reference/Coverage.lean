import LiveSheet.Proofs.Await.Sequencing
import LiveSheet.Proofs.Eval.Alike
import LiveSheet.Proofs.Graph.Reach
import LiveSheet.Proofs.Reference.Expanded
import LiveSheet.Proofs.Reference.Texts

/-! The scan has every name that the evaluation of a text reads. Evaluation sequences the text, expands its
placeholders and parses what comes out; a reader finds in the text what it finds after each of these steps, if the
text shows itself to the scan as it is. -/

namespace LiveSheet.References

/-! The conditions can be checked on a text. -/

instance decidableAlong : ∀ (r f : Reader) (cs : List Char), Decidable (Along r f cs)
  | r, f, [] => inferInstanceAs (Decidable (r.place = f.place))
  | r, f, c :: cs =>
    have := decidableAlong (r.next c) (f.next c) cs
    inferInstanceAs (Decidable (r.place = f.place ∧ Along (r.next c) (f.next c) cs))

instance (r : Reader) (cs : List Char) : Decidable (Alone r cs) :=
  inferInstanceAs (Decidable (Along r .start cs ∧ (r.after cs).place = .code ∧ (r.after cs).braces = r.braces))

instance decidableEnclosed : ∀ (r : Reader) (cs : List Char), Decidable (Enclosed r cs)
  | _, [] => .isTrue trivial
  | r, c :: cs =>
    have := decidableEnclosed (r.next c) cs
    inferInstanceAs (Decidable ((c = '(' → r.place = .code → ∀ x ∈ Await.splitParen cs, Alone (r.next c) x.1) ∧
      Enclosed (r.next c) cs))

instance (s : Sight) : Decidable s.Calm := inferInstanceAs (Decidable (s = .other ∨ s = .slash))

theorem freestanding_iff {r : Reader} {inner rest : List Char} : Freestanding r inner rest ↔
    r.place = .code ∧ r.braces = [] ∧ r.sight.Calm ∧ (r.after ('\x7b' :: inner)).place = .code ∧
      (r.after ('\x7b' :: inner)).braces = [] ∧
      ∀ c ∈ rest.head?.toList, Text.isWord c = false ∧ Text.isNamePart c = false ∧ c ≠ '\x7b' := by
  simp only [Option.mem_toList]
  constructor
  · intro h
    exact ⟨h.place, h.braces, h.sight, h.closing, h.level, h.next⟩
  · rintro ⟨place, braces, sight, closing, level, next⟩
    exact ⟨place, braces, sight, closing, level, next⟩

instance (r : Reader) (inner rest : List Char) : Decidable (Freestanding r inner rest) :=
  decidable_of_iff _ freestanding_iff.symm

instance decidableApart : ∀ (quoting : Text.Quoting) (r : Reader) (cs : List Char), Decidable (Apart quoting r cs)
  | _, _, [] => .isTrue trivial
  | quoting, r, c :: cs =>
    have := decidableApart (quoting.after true c) (r.next c) cs
    inferInstanceAs (Decidable ((c = '\x7b' → quoting = .code → ∀ x ∈ Text.splitBrace 1 cs, Freestanding r x.1 x.2) ∧
      Apart (quoting.after true c) (r.next c) cs))

instance (cs : List Char) : Decidable (Plain cs) :=
  inferInstanceAs (Decidable (.misread ∉ Reader.start.findings (cs ++ ['\n'])))

/-- A text that reads from left to right as what it is: no comment and no way around a name misleads its reader, its
parentheses take in whole literals, and its placeholders stand on their own. -/
structure Candid (names : List String) (text : String) : Prop where
  plain : Plain text.toList
  enclosed : Enclosed .start text.toList
  apart : Apart .code .start (Await.sequenceCalls names text.toList)

variable {σ : Type}

theorem expands_line {lookup : String → Option Value} {cs out : List Char} (hapart : Apart .code .start cs)
    (h : Placeholder.expandFrom lookup .source .code cs = .ok out) :
    Expands none .start .start (cs ++ ['\n']) (out ++ ['\n']) (Placeholder.asksFrom lookup .source .code cs) := by
  rw [← List.append_nil cs] at hapart
  have hexpands := expandFrom_expands hapart (.inl rfl) h
  have hline := hexpands.append (.single hexpands.near.line none)
  rwa [List.append_nil] at hline

section

variable {set : IntegrationSet σ} {text : String} {declared : NameSet} {values : NameMap Value} {names : List String}

theorem readNames_mentions (hset : set.Plain) (htext : Candid (Await.deferredCalls set .expression) text)
    (h : readNames set declared values text = .ok names) {n : String} (hn : n ∈ names)
    (hname : Text.isVariableName n.toList = true) (hword : n ∉ "await" :: constants) : Mentions text.toList n := by
  obtain ⟨program, hprogram, heq⟩ := Parser.bind_eq_ok.1 h
  cases heq
  obtain ⟨source, hsource, hprogram⟩ := Parser.bind_eq_ok.1 hprogram
  obtain ⟨out, hout, rfl⟩ := Parser.map_eq_ok.1 hsource
  rw [Await.sequence, String.toList_ofList] at hout
  obtain ⟨hawait, hconstant⟩ := not_or.1 (List.mem_cons.not.1 hword)
  have hcallable := Await.callable_deferredCalls hset .expression
  have hexpands := expands_line htext.apart hout
  have hmentions : Mentions (Await.sequenceCalls (Await.deferredCalls set .expression) text.toList) n ∨
      (Finding.name n.toList).IsConstant → Mentions text.toList n := by
    rintro (hmentions | ⟨w, hw, heq⟩)
    · exact mentions_sequenceCalls hcallable htext.enclosed hmentions hawait
    · rw [String.toList_inj.1 (Finding.name.inj heq)] at hconstant
      exact absurd hw hconstant
  rcases List.mem_append.1 hn with hn | hn
  · rw [Placeholder.asks, Await.sequence, String.toList_ofList] at hn
    exact hmentions (hexpands.named n hn)
  · have hplain : Plain out := by
      intro hmisread
      rcases hexpands.found _ hmisread with hmisread | ⟨w, _, heq⟩
      · exact plain_sequenceCalls hcallable htext.enclosed htext.plain hmisread
      · cases heq
    rw [← String.toList_ofList (l := out)] at hplain
    have hread := parse_mentions hprogram hplain hn hname
    rw [String.toList_ofList] at hread
    exact hmentions (hexpands.found _ hread)

/-- The scan of a candid text has every declared name that evaluating the text reads, and so the graph has an edge to
it from every variable with that text but itself. -/
theorem mem_scan_of_readNames (hset : set.Plain) (htext : Candid (Await.deferredCalls set .expression) text)
    (h : readNames set declared values text = .ok names) {n : String} (hn : n ∈ names) (hdeclared : n ∈ declared)
    (hname : Text.isVariableName n.toList = true) (hword : n ∉ "await" :: constants) (namespaces : NameSet) :
    n ∈ (scan text declared namespaces).reads ∧ ∀ definitions : VariableSet, definitions.domain = declared →
      ∀ name v, definitions.get? name = some v → v.expression? = some text → name ≠ n →
        (Graph.build definitions namespaces).Reads name n := by
  have hscan := scan_mentions (readNames_mentions hset htext h hn hname hword) hdeclared namespaces
  refine ⟨hscan, ?_⟩
  rintro definitions rfl name v hv hrule hne
  exact Graph.reads_build.2 ⟨v, text, hv, hrule, hscan, hne.symm⟩

end

theorem mem_scan_of_readNames_bonus : ∃ names,
    readNames (.empty : IntegrationSet Unit) (NameSet.ofNames ["base", "bonus"]) ∅
      "max(this.base, {bonus}) + \x60${base}\x60" = .ok names ∧
    "bonus" ∈ names ∧
    "bonus" ∈ (scan "max(this.base, {bonus}) + \x60${base}\x60" (NameSet.ofNames ["base", "bonus"]) ∅).reads := by
  have hset : (.empty : IntegrationSet Unit).Plain := by
    intro entry hentry
    cases hentry
  have happart : Apart .code .start
      (Await.sequenceCalls [] "max(this.base, {bonus}) + \x60${base}\x60".toList) := by
    rw [Await.sequenceCalls_nil]
    decide +kernel
  have hcandid : Candid [] "max(this.base, {bonus}) + \x60${base}\x60" :=
    ⟨by decide +kernel, by decide +kernel, happart⟩
  have hread : readNames (.empty : IntegrationSet Unit) (NameSet.ofNames ["base", "bonus"]) ∅
      "max(this.base, {bonus}) + \x60${base}\x60" = .ok ["bonus", "max", "base", "base"] := by
    unfold readNames programOf
    rw [Await.sequence, show Await.deferredCalls (.empty : IntegrationSet Unit) .expression = [] from rfl,
      Await.sequenceCalls_nil, String.ofList_toList]
    cbv
  have hdeclared : "bonus" ∈ NameSet.ofNames ["base", "bonus"] := by decide
  exact ⟨_, hread, by decide,
    (mem_scan_of_readNames hset hcandid hread (by decide) hdeclared (by decide +kernel) (by decide) ∅).1⟩

/-- The scan misses reads behind some comments: the apostrophe opens a string, as the scan sees it, and the name on the
next line is inside. -/
theorem mem_scan_of_readNames_remark : ¬∀ (text : String) (declared : NameSet) (values : NameMap Value)
    (names : List String) (n : String),
    readNames (.empty : IntegrationSet Unit) declared values text = .ok names → n ∈ names → n ∈ declared →
      n ∈ (scan text declared ∅).reads := by
  intro h
  have hscan : ¬"hp" ∈ (scan "// the player's hp\nhp" (NameSet.ofNames ["hp"]) ∅).reads := by decide +kernel
  have hread : readNames (.empty : IntegrationSet Unit) (NameSet.ofNames ["hp"]) ∅ "// the player's hp\nhp" =
      .ok ["hp"] := by
    unfold readNames programOf
    rw [Await.sequence, show Await.deferredCalls (.empty : IntegrationSet Unit) .expression = [] from rfl,
      Await.sequenceCalls_nil, String.ofList_toList]
    cbv
  exact hscan (h _ _ _ _ _ hread (by decide) (by decide))

end LiveSheet.References
