import LiveSheet.Proofs.Reference.Placeholders
import LiveSheet.Proofs.Reference.Values

/-! Expansion brings no names into a text but constants, and it asks for no name that a reader does not come past. The
braces it replaces have to stand on their own, or a value becomes a part of what is around it. -/

namespace LiveSheet.References

open Placeholder

/-- Braces in code that take in whole literals, with no word, no brace and no part of `this` next to them. -/
structure Freestanding (r : Reader) (inner rest : List Char) : Prop where
  place : r.place = .code
  braces : r.braces = []
  sight : r.sight.Calm
  closing : (r.after ('\x7b' :: inner)).place = .code
  level : (r.after ('\x7b' :: inner)).braces = []
  next : ∀ c ∈ rest.head?, Text.isWord c = false ∧ Text.isNamePart c = false ∧ c ≠ '\x7b'

/-- All braces that expansion replaces stand on their own. -/
def Apart (quoting : Text.Quoting) (r : Reader) : List Char → Prop
  | [] => True
  | c :: cs => (c = '\x7b' → quoting = .code → ∀ x ∈ Text.splitBrace 1 cs, Freestanding r x.1 x.2) ∧
      Apart (quoting.after true c) (r.next c) cs

variable {quoting : Text.Quoting} {r r' : Reader} {xs ys cs inner rest : List Char} {c : Char}

theorem Apart.after (xs : List Char) (h : Apart quoting r (xs ++ ys)) : Apart (Mode.source.afterAll xs quoting) (r.after xs) ys := by
  induction xs generalizing quoting r with
  | nil => exact h
  | cons c xs ih => exact ih h.2

theorem splitBrace_append {depth : Nat} (h : Text.splitBrace depth cs = some (inner, rest)) (ys : List Char) :
    Text.splitBrace depth (cs ++ ys) = some (inner, rest ++ ys) := by
  fun_induction Text.splitBrace depth cs generalizing inner <;> grind [Text.splitBrace, Option.map_eq_some_iff]

/-- A reader of the expanded text stands where one of the text does, or at the end of a value in the place of braces
that the other one has just left. -/
def Near (next : Option Char) (r' r : Reader) : Prop := r' = r ∨
  ∃ s : Sight, s.Spent ∧ r = ⟨.code, [], .other⟩ ∧ r' = ⟨.code, [], s⟩ ∧
    ∀ c ∈ next, Text.isWord c = false ∧ Text.isNamePart c = false ∧ c ≠ '\x7b'

namespace Near

theorem step (h : Near (some c) r' r) : r'.next c = r.next c ∧ ∀ x ∈ r'.finds c, x ∈ r.finds c ∨ x.IsConstant := by
  rcases h with rfl | ⟨s, hs, rfl, rfl, hc⟩
  · exact ⟨rfl, fun _ => .inl⟩
  · obtain ⟨hword, hname, _⟩ := hc c rfl
    have hnext : s.next c = Sight.other.next c := next_of_settled hs.settled hword hname
    exact ⟨by simp only [Reader.next, hnext], fun x hx => .inr (finds_spent hs c x hx)⟩

theorem eq_of_brace (h : Near (some '\x7b') r' r) : r' = r := by
  rcases h with h | ⟨_, _, _, _, hc⟩
  · exact h
  · exact absurd rfl (hc _ rfl).2.2

theorem line (h : Near none r' r) : Near (some '\n') r' r := by
  refine h.imp_right ?_
  rintro ⟨s, hs, hr, hr', _⟩
  refine ⟨s, hs, hr, hr', fun c hc => ?_⟩
  obtain rfl : '\n' = c := Option.some.inj hc
  decide

end Near

/-- A reader of `out` goes along with one of `cs` and finds no other names but constants, and the names of `asked` are
found in `cs`. -/
structure Expands (next : Option Char) (r' r : Reader) (cs out : List Char) (asked : List String) : Prop where
  near : Near next (r'.after out) (r.after cs)
  found : ∀ x ∈ r'.findings out, x ∈ r.findings cs ∨ x.IsConstant
  named : ∀ n ∈ asked, .name n.toList ∈ r.findings cs ∨ (Finding.name n.toList).IsConstant

namespace Expands

variable {next : Option Char} {out xs' ys' : List Char} {asked asked' : List String}

theorem nil (h : Near next r' r) : Expands next r' r [] [] [] := ⟨h, fun _ hx => .inl hx, fun _ hn => by cases hn⟩

theorem append {next' : Option Char} (hx : Expands next' r' r xs xs' asked)
    (hy : Expands next (r'.after xs') (r.after xs) ys ys' asked') :
    Expands next r' r (xs ++ ys) (xs' ++ ys') (asked ++ asked') := by
  refine ⟨by rw [Reader.after_append, Reader.after_append]; exact hy.near, fun x hmem => ?_, fun n hn => ?_⟩
  · rw [Reader.findings_append, List.mem_append]
    rw [Reader.findings_append, List.mem_append] at hmem
    rcases hmem with hmem | hmem
    · exact (hx.found x hmem).imp_left .inl
    · exact (hy.found x hmem).imp_left .inr
  · rw [Reader.findings_append, List.mem_append]
    rcases List.mem_append.1 hn with hn | hn
    · exact (hx.named n hn).imp_left .inl
    · exact (hy.named n hn).imp_left .inr

theorem single (h : Near (some c) r' r) (next : Option Char) : Expands next r' r [c] [c] [] := by
  obtain ⟨hnext, hfinds⟩ := h.step
  refine ⟨.inl hnext, fun x hx => ?_, fun _ hn => by cases hn⟩
  rw [Reader.findings_cons, Reader.findings_nil, List.append_nil] at hx ⊢
  exact hfinds x hx

end Expands

theorem expands_value {ref : Placeholder.Reference} {v : Value} {inner' : List Char} {asked : List String}
    (hapart : Freestanding r inner rest) (hinner : Expands (some '\x7d') (r.next '\x7b') (r.next '\x7b') inner inner' asked)
    (href : reference? inner' = some ref) :
    Expands rest.head? r r ('\x7b' :: inner ++ ['\x7d']) v.sourceChars (asked ++ [ref.name]) := by
  have hclosed : Expands none (r.next '\x7b') (r.next '\x7b') (inner ++ ['\x7d']) (inner' ++ ['\x7d']) asked := by
    have hall := hinner.append (.single hinner.near none)
    rwa [List.append_nil] at hall
  have hinside : ∀ x ∈ (r.next '\x7b').findings (inner ++ ['\x7d']), x ∈ r.findings ('\x7b' :: inner ++ ['\x7d']) := fun x hx => by
    rw [List.cons_append, Reader.findings_cons]
    exact List.mem_append_right _ hx
  obtain ⟨place, braces, s⟩ := r
  obtain rfl : place = .code := hapart.place
  obtain rfl : braces = [] := hapart.braces
  have hopen : (⟨.code, [], s⟩ : Reader).next '\x7b' = ⟨.code, [], .other⟩ := by
    simp [Reader.next, isQuote, s.next_plain (c := '\x7b') (by decide)]
  obtain ⟨s', hs', hafter, hfound⟩ := mild_sourceChars v [] s hapart.sight
  refine ⟨.inr ⟨s', hs', ?_, hafter, hapart.next⟩, fun x hx => .inr (hfound x hx), fun n hn => ?_⟩
  · obtain ⟨place, braces, s₁, hbefore⟩ : ∃ place braces s₁, (⟨.code, [], s⟩ : Reader).after ('\x7b' :: inner) =
        ⟨place, braces, s₁⟩ := ⟨_, _, _, rfl⟩
    have hclosing := hapart.closing
    have hlevel := hapart.level
    rw [hbefore] at hclosing hlevel
    obtain rfl : place = .code := hclosing
    obtain rfl : braces = [] := hlevel
    rw [Reader.after_append, hbefore, Reader.after_cons, Reader.after_nil]
    simp [Reader.next, isQuote, s₁.next_plain (c := '\x7d') (by decide)]
  · rcases List.mem_append.1 hn with hn | hn
    · exact (hclosed.named n hn).imp_left (hinside _)
    · obtain rfl := List.mem_singleton.1 hn
      have hread := reference?_read href []
      rw [← hopen] at hread
      exact (hclosed.found _ hread).imp_left (hinside _)

theorem expands_braces {inner' : List Char} {asked : List String} (next : Option Char)
    (hinner : Expands (some '\x7d') (r.next '\x7b') (r.next '\x7b') inner inner' asked) :
    Expands next r r ('\x7b' :: inner ++ ['\x7d']) ('\x7b' :: inner' ++ ['\x7d']) asked := by
  have hopen : Expands (some '\x7b') r r ['\x7b'] ['\x7b'] [] := .single (.inl rfl) _
  have hclose := Expands.single hinner.near next
  have hall := (hopen.append hinner).append hclose
  rwa [List.nil_append, List.append_nil] at hall

theorem expandFrom_expands {lookup : String → Option Value} {post out : List Char}
    (hapart : Apart quoting r (cs ++ post)) (hnear : Near (cs ++ post).head? r' r)
    (h : expandFrom lookup .source quoting cs = .ok out) :
    Expands post.head? r' r cs out (asksFrom lookup .source quoting cs) := by
  induction hlength : cs.length using Nat.strongRecOn generalizing cs quoting r r' post out with
  | _ n ih =>
    subst hlength
    cases cs with
    | nil =>
      rw [expandFrom] at h
      cases h
      rw [asksFrom]
      exact .nil hnear
    | cons c cs =>
      have hcopy : ∀ {quoting' : Text.Quoting} {out' : List Char}, Apart quoting' (r.next c) (cs ++ post) →
          expandFrom lookup .source quoting' cs = .ok out' →
          Expands post.head? r' r (c :: cs) (c :: out') (asksFrom lookup .source quoting' cs) := by
        intro quoting' out' hrest hout
        exact (Expands.single hnear (cs ++ post).head?).append (ih cs.length (by simp) hrest (.inl hnear.step.1) hout rfl)
      by_cases hbrace : c = '\x7b' ∧ quoting = .code
      · obtain ⟨rfl, rfl⟩ := hbrace
        obtain rfl := hnear.eq_of_brace
        cases hsplit : Text.splitBrace 1 cs with
        | none =>
          rw [expandFrom_open hsplit] at h
          obtain ⟨out', hout, rfl⟩ := Parser.map_eq_ok.1 h
          rw [asksFrom_open hsplit]
          exact hcopy hapart.2 hout
        | some split =>
          obtain ⟨inner, rest⟩ := split
          have heq := Text.eq_of_splitBrace hsplit
          have hfree := hapart.1 rfl rfl _ (splitBrace_append hsplit post)
          rw [expandFrom_brace hsplit] at h
          obtain ⟨inner', hinner, h⟩ := Parser.bind_eq_ok.1 h
          obtain ⟨shown, hshown, h⟩ := Parser.bind_eq_ok.1 h
          obtain ⟨rest', hrest, h⟩ := Parser.bind_eq_ok.1 h
          cases h
          have hinside : Apart .code (r'.next '\x7b') (inner ++ ('\x7d' :: rest ++ post)) := by
            have htail : Apart .code (r'.next '\x7b') (cs ++ post) := hapart.2
            rwa [heq, List.append_assoc] at htail
          have hexpands := ih inner.length (by grind) hinside (.inl rfl) hinner rfl
          have hbehind : Apart (Mode.source.afterAll (inner ++ ['\x7d']) .code) (r'.after ('\x7b' :: inner ++ ['\x7d']))
              (rest ++ post) := by
            have hchars : inner ++ ('\x7d' :: rest ++ post) = inner ++ ['\x7d'] ++ (rest ++ post) := by simp
            rw [hchars] at hinside
            exact hinside.after _
          have hall : ∀ {asked : List String},
              Expands (rest ++ post).head? r' r' ('\x7b' :: inner ++ ['\x7d']) shown asked →
              Expands post.head? r' r' ('\x7b' :: cs) (shown ++ rest')
                (asked ++ asksFrom lookup .source (Mode.source.afterAll (inner ++ ['\x7d']) .code) rest) := by
            intro asked hshown
            have happend := hshown.append (ih rest.length (by grind) hbehind hshown.near hrest rfl)
            rwa [List.append_assoc, List.singleton_append, List.cons_append, ← heq] at happend
          rw [asksFrom_brace hsplit, hinner]
          cases href : reference? inner' with
          | none =>
            simp only [replacement, href] at hshown
            cases hshown
            simpa [Except.toOption, href] using hall (expands_braces _ hexpands)
          | some ref =>
            simp only [replacement, href] at hshown
            obtain ⟨v, _, rfl⟩ := Parser.map_eq_ok.1 hshown
            rw [Mode.render, Value.source, String.toList_ofList] at hall ⊢
            simpa [Except.toOption, href] using hall (expands_value hfree hexpands href)
      · rw [expandFrom_plain hbrace] at h
        obtain ⟨out', hout, rfl⟩ := Parser.map_eq_ok.1 h
        rw [asksFrom_plain hbrace]
        exact hcopy hapart.2 hout

end LiveSheet.References
