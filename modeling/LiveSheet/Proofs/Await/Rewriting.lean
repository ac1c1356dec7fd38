import LiveSheet.Proofs.Await.Parens
import LiveSheet.Proofs.Await.Surroundings
import LiveSheet.Proofs.Await.Insertion

/-! What the pass makes of a clear text: the text with its calls awaited. The pass copies the pieces
between calls, and where a call stands in the text it finds just that call. -/

namespace LiveSheet.Await

/-- From a place on the pass goes over `xs` and writes `out` for it. -/
def Passes (names : List String) (spans : List Text.Span) (i : Nat) (before next xs out : List Char) : Prop :=
  sequenceFrom (callPatterns names) spans i before (xs ++ next) =
    out ++ sequenceFrom (callPatterns names) spans (i + xs.length) (xs.reverse ++ before) next

namespace Passes

variable {names : List String} {spans : List Text.Span} {i : Nat} {before next : List Char}

theorem append {xs ys out out' : List Char} (hx : Passes names spans i before (ys ++ next) xs out)
    (hy : Passes names spans (i + xs.length) (xs.reverse ++ before) next ys out') :
    Passes names spans i before next (xs ++ ys) (out ++ out') := by
  unfold Passes at *
  rw [List.append_assoc, hx, hy, List.length_append, List.reverse_append, List.append_assoc, List.append_assoc,
    Nat.add_assoc]

variable (hnames : ∀ name ∈ names, Callable name)

include hnames

theorem copy {xs : List Char} (h : ∀ ys c zs, xs = ys ++ c :: zs →
    Idle names spans (i + ys.length) (ys.reverse ++ before) (c :: (zs ++ next))) :
    Passes names spans i before next xs xs :=
  sequenceFrom_copy hnames xs i before next h

theorem of_not_start {xs : List Char} (h : ∀ c ∈ xs, Text.isVariableStart c = false) :
    Passes names spans i before next xs xs := by
  refine copy hnames fun ys c zs heq m hm => ?_
  obtain ⟨t, ht, hchars, _⟩ := firstMatch_callee hnames hm
  obtain ⟨d, ds, hd, hstart⟩ := ht.exists_cons
  rw [hd] at hchars
  obtain rfl := (List.cons.inj hchars).1
  rw [h c (heq ▸ List.mem_append_right ys List.mem_cons_self)] at hstart
  cases hstart

theorem cons {c : Char} {xs out : List Char} (hc : Text.isVariableStart c = false)
    (h : Passes names spans (i + 1) (c :: before) next xs out) : Passes names spans i before next (c :: xs) (c :: out) := by
  have hhead : Passes names spans i before (xs ++ next) [c] [c] :=
    of_not_start hnames fun d hd => by rwa [List.mem_singleton.1 hd]
  exact hhead.append h

theorem of_blank {gap : List Char} (h : Blank gap) : Passes names spans i before next gap gap := by
  refine of_not_start hnames fun c hc => Bool.eq_false_iff.2 fun hstart => ?_
  have hpart := Text.isVariablePart_of_isVariableStart hstart
  rw [Text.not_isVariablePart_of_isBlank (h c hc)] at hpart
  cases hpart

theorem of_held {start j : Nat} {xs : List Char} (h : Held spans start j) (hstart : start ≤ i)
    (hj : i + xs.length = j) : Passes names spans i before next xs xs := by
  refine copy hnames fun ys c zs heq m _ => ?_
  have hlength := congrArg List.length heq
  rw [List.length_append, List.length_cons] at hlength
  rw [h (i + ys.length) (by omega) (by omega), Bool.true_or]

theorem of_word {text : List Char} {nesting : Nat} {lead lead' : Lead} {rest : Source}
    (hfits : (Atom.word text).Fits (rest.chars ++ next)) (hquiet : (Atom.word text).Quiet names lead rest)
    (hstands : Stands lead before (text ++ (rest.chars ++ next))) (hrest : rest.Spells names nesting next)
    (hclear : rest.Clear names nesting lead') (hnext : Ends next) :
    Passes names spans i before (rest.chars ++ next) text text := by
  refine copy hnames fun ys c zs heq m hm => ?_
  obtain ⟨t, ht, hchars, _, hbefore⟩ := firstMatch_callee hnames hm
  by_cases hdot : ys = [] ∧ lead = .dot
  · obtain ⟨rfl, rfl⟩ := hdot
    rw [show ([] : List Char).reverse ++ before = before from rfl, hstands.dot, Bool.or_eq_true]
    exact Or.inr rfl
  · have hcalls : rest.Calls names (c :: zs) :=
      Source.calls_of_callee hrest hclear hnext
        (fun d hd => hfits.2.1 d (heq ▸ List.mem_append_right ys hd)) hfits.2.2 ht hchars
    exact absurd hcalls (hquiet ys (c :: zs) heq (getLast_of_head hbefore) fun hnil hlead => hdot ⟨hnil, hlead⟩)

theorem of_atom {a : Atom} {nesting : Nat} {lead lead' : Lead} {braces : List Nat} {rest : Source}
    (hfits : a.Fits (rest.chars ++ next)) (hquiet : a.Quiet names lead rest)
    (hstands : Stands lead before (a.chars ++ (rest.chars ++ next)))
    (hat : At spans i .code braces (a.chars ++ (rest.chars ++ next))) (hrest : rest.Spells names nesting next)
    (hclear : rest.Clear names nesting lead') (hnext : Ends next) :
    Passes names spans i before (rest.chars ++ next) a.chars a.chars := by
  cases a with
  | word text => exact of_word hnames hfits hquiet hstands hrest hclear hnext
  | mark m =>
    have hmark : ∀ c ∈ m.chars, Text.isVariableStart c = false := by cases m <;> decide
    exact of_not_start hnames hmark
  | number first text digits value =>
    refine copy hnames fun ys c zs heq m hm => ?_
    obtain ⟨t, ht, hchars, _, hbefore⟩ := firstMatch_callee hnames hm
    obtain ⟨d, ds, hd, hstart⟩ := ht.exists_cons
    rw [hd] at hchars
    obtain rfl := (List.cons.inj hchars).1
    rw [hquiet ys c zs heq (getLast_of_head hbefore)] at hstart
    cases hstart
  | quoted quote body =>
    rw [Atom.chars, List.cons_append, List.append_assoc] at hat
    refine of_held hnames (hat.quoted hfits.1 hfits.2).1 (Nat.le_refl i) ?_
    simp [Atom.chars, Nat.add_assoc]

theorem of_call {t : Target} {lead : Lead} {braces : List Nat} {args out : List Char} (ht : t.Fits names)
    (hlead : lead ≠ .dot) (hargs : Balanced args)
    (hstands : Stands lead before (t.chars ++ '(' :: (args ++ ')' :: next)))
    (hat : At spans i .code braces (t.chars ++ '(' :: (args ++ ')' :: next)))
    (hout : sequenceFrom (callPatterns names) (Text.nonCodeSpans args) 0 [] args = out) :
    Passes names spans i before next (t.chars ++ '(' :: (args ++ [')']))
      (awaitCall (decide (lead = .await)) (t.chars ++ ['(']) out) := by
  obtain ⟨c, cs, hchars, hc⟩ := ht.exists_cons
  have hpart := Text.isNamePart_of_isVariablePart (Text.isVariablePart_of_isVariableStart hc)
  have hbefore : before.head?.any Text.isWord = false := by
    refine Bool.eq_false_iff.2 fun hword => ?_
    have hnot := hstands.parted (by
      cases hhead : before.head? with
      | none => simp [hhead] at hword
      | some d => simpa [hhead] using Or.inl (by simpa [hhead] using hword))
    rw [hchars, List.cons_append, List.head?_cons, Option.any_some, hpart] at hnot
    cases hnot
  obtain ⟨name, hm⟩ := firstMatch_of_fits hnames ht hbefore (args ++ ')' :: next)
  have hspan : Text.inSpans spans i = false := by
    rw [hchars] at hat
    exact hat.not_inSpans (not_mem_breaks_of_isNamePart hpart)
  have hskip : (Text.inSpans spans i || Text.followsDot before) = false := by
    simp [hspan, hstands.dot, hlead]
  have hcall := sequenceFrom_call hm hskip (splitParen_chars hargs next)
  have htake : (t.chars ++ '(' :: (args ++ ')' :: next)).take ((t.chars ++ ['(']).length + args.length + 1) =
      t.chars ++ '(' :: (args ++ [')']) := by
    rw [show t.chars ++ '(' :: (args ++ ')' :: next) = t.chars ++ '(' :: (args ++ [')']) ++ next by simp]
    refine List.take_left' ?_
    simp
    omega
  have hlength : (t.chars ++ ['(']).length + args.length + 1 = (t.chars ++ '(' :: (args ++ [')'])).length := by
    simp
    omega
  rw [htake, hlength, hout, hstands.await] at hcall
  rw [Passes, ← hcall]
  simp

end Passes

mutual

theorem Source.passes {names : List String} (hnames : ∀ name ∈ names, Callable name) :
    ∀ {src : Source} {nesting : Nat} {lead : Lead} {spans : List Text.Span} {i : Nat} {braces : List Nat}
      {before next : List Char}, src.Spells names nesting next → src.Clear names nesting lead → Ends next →
      Stands lead before (src.chars ++ next) → At spans i .code braces (src.chars ++ next) →
      Passes names spans i before next src.chars (src.awaited (decide (lead = .await))).chars
  | .done gap, _, _, _, _, _, _, _, hgap, _, _, _, _ => .of_blank hnames hgap
  | .leaf gap atom rest, _, lead, spans, i, braces, before, next, ⟨hgap, hatom, hrest⟩, ⟨_, hquiet, hclear⟩, hnext,
      hstands, hat => by
    simp only [Source.chars, List.append_assoc] at hstands hat
    have hstands₁ := hstands.gap hgap
    have hat₁ := hat.silent hgap.silent
    have htail := Source.passes hnames hrest hclear hnext (hstands₁.atom hatom)
      (Transparent.of_atom hatom _ _ _ _ hat₁)
    simp only [Lead.after_eq_await] at htail
    exact .append (.of_blank hnames hgap) (.append (.of_atom hnames hatom hquiet hstands₁ hat₁ hrest hclear hnext) htail)
  | .template gap body rest, _, lead, spans, i, braces, before, next, ⟨hgap, hbody, hrest⟩, ⟨hcode, hclear⟩, hnext,
      _, hat => by
    simp only [Source.chars, List.append_assoc, List.cons_append] at hat
    have hat₁ := (hat.silent hgap.silent).backtick
    have hbodyPass := Segments.passes hnames ('\x60' :: (gap.reverse ++ before)) hbody hcode (Nat.le_succ _) hat₁
    have hat₂ := hbody.at_code hat₁
    rw [Nat.add_assoc _ body.chars.length, show body.chars.length + 1 = (body.chars ++ ['\x60']).length by simp] at hat₂
    have hstands : Stands .other ((body.chars ++ ['\x60']).reverse ++ ('\x60' :: (gap.reverse ++ before)))
        (rest.chars ++ next) := by
      rw [List.reverse_append]
      exact .bracket (by decide) _ _
    have htail : Passes names spans _ _ next rest.chars (rest.awaited false).chars :=
      Source.passes hnames hrest hclear hnext hstands hat₂
    have hpass := Passes.append (.of_blank hnames hgap) (.cons hnames (by decide) (hbodyPass.append htail))
    simpa only [Source.chars, Source.awaited, List.append_assoc, List.singleton_append] using hpass
  | .group gap bracket inner rest, _, lead, spans, i, braces, before, next, ⟨hgap, hinner, hrest⟩, ⟨hinside, hclear⟩,
      hnext, _, hat => by
    simp only [Source.chars, List.append_assoc, List.cons_append] at hat
    have hopen : Text.isVariableStart bracket.opening = false := by cases bracket <;> decide
    have hclose : Text.isVariableStart bracket.closing = false := by cases bracket <;> decide
    have hends : Ends (bracket.closing :: (rest.chars ++ next)) := by
      rintro c ⟨⟩
      cases bracket <;> decide
    have hstands : ∀ before next, Stands .other (bracket.opening :: before) next := by
      cases bracket <;> exact fun _ _ => .bracket (by decide) _ _
    have hstands' : ∀ before next, Stands .other (bracket.closing :: before) next := by
      cases bracket <;> exact fun _ _ => .bracket (by decide) _ _
    have hat₁ := (hat.silent hgap.silent).skip bracket.silent.1
    have hinnerPass := Source.passes hnames hinner hinside hends (hstands (gap.reverse ++ before) _) hat₁
    have hat₂ := (hinner.transparent _ _ _ _ hat₁).skip bracket.silent.2
    have htail := Source.passes hnames hrest hclear hnext
      (hstands' (inner.chars.reverse ++ (bracket.opening :: (gap.reverse ++ before))) _) hat₂
    exact .append (.of_blank hnames hgap) (.cons hnames hopen (.append hinnerPass (.cons hnames hclose htail)))
  | .call gap target args rest, _, lead, spans, i, braces, before, next, ⟨hgap, htarget, _, hargs, hrest⟩,
      ⟨hlead, _, heven, hinside, hclear⟩, hnext, hstands, hat => by
    simp only [Source.chars, List.append_assoc, List.cons_append] at hstands hat
    have hargsPass := Source.passes hnames (hargs.looser (.of_nil _)) hinside (fun _ h => by cases h) (.begin _)
      ((List.append_nil args.chars).symm ▸ At.begin args.chars)
    rw [Passes, List.append_nil, sequenceFrom_end, List.append_nil] at hargsPass
    have hat₁ := hat.silent hgap.silent
    have hcallPass := Passes.of_call hnames htarget hlead (hargs.balanced heven) (hstands.gap hgap) hat₁ hargsPass
    have htransparent : Transparent (target.chars ++ '(' :: (args.chars ++ [')'])) :=
      .append (.of_silent htarget.silent) (.cons (by decide) (.append hargs.transparent
        (.cons (by decide) (.of_silent (List.forall_mem_nil _)))))
    have hat₂ := htransparent _ _ _ (rest.chars ++ next) (by simpa using hat₁)
    have hstands₂ : Stands .other ((target.chars ++ '(' :: (args.chars ++ [')'])).reverse ++ (gap.reverse ++ before))
        (rest.chars ++ next) := by
      rw [List.reverse_append, List.reverse_cons, List.reverse_append]
      exact .bracket (by decide) _ _
    have htail : Passes names spans _ _ next rest.chars (rest.awaited false).chars :=
      Source.passes hnames hrest hclear hnext hstands₂ hat₂
    have hpass := Passes.append (.of_blank hnames hgap) (.append hcallPass htail)
    by_cases hawait : lead = .await
    · simpa [awaitCall, hawait, Source.awaited, Source.chars] using hpass
    · simpa [awaitCall, hawait, Source.awaited, Source.chars, Bracket.opening, Bracket.closing, Atom.chars] using hpass

theorem Segments.passes {names : List String} (hnames : ∀ name ∈ names, Callable name) :
    ∀ {body : Segments} {spans : List Text.Span} {i start : Nat} {braces : List Nat} {next : List Char}
      (before : List Char), body.Spells names → body.Clear names → start ≤ i →
      At spans i (.template start false) braces (body.chars ++ '\x60' :: next) →
      Passes names spans i before next (body.chars ++ ['\x60']) (body.awaited.chars ++ ['\x60'])
  | .last text, spans, i, start, _, _, _, htext, _, hstart, hat =>
    .of_held hnames (hat.text_last htext).1 hstart (by simp [Segments.chars, Nat.add_assoc])
  | .code text inner rest, spans, i, start, braces, next, before, ⟨htext, hinner, _, hrest⟩, ⟨hcode, _, hclear⟩, hstart,
      hat => by
    simp only [Segments.chars, List.append_assoc, List.cons_append] at hat
    obtain ⟨hheld, hat₁⟩ := hat.text_code htext
    have htextPass : Passes names spans i before (inner.chars ++ '\x7d' :: (rest.chars ++ ['\x60']) ++ next)
        (spell text ++ ['$', '\x7b']) (spell text ++ ['$', '\x7b']) :=
      .of_held hnames hheld hstart (by simp [Nat.add_assoc])
    have hends : Ends ('\x7d' :: (rest.chars ++ '\x60' :: next)) := by
      rintro c ⟨⟩
      decide
    have hstands : Stands .other ((spell text ++ ['$', '\x7b']).reverse ++ before)
        (inner.chars ++ '\x7d' :: (rest.chars ++ '\x60' :: next)) := by
      rw [List.reverse_append]
      exact .bracket (by decide) _ _
    rw [Nat.add_assoc, show (spell text).length + 2 = (spell text ++ ['$', '\x7b']).length by simp] at hat₁
    have hspells := hinner.looser (.of_bracket (Or.inr (Or.inr rfl)) [] (rest.chars ++ '\x60' :: next))
    have hinnerPass : Passes names spans _ _ _ inner.chars (inner.awaited false).chars :=
      Source.passes hnames hspells hcode hends hstands hat₁
    have hat₂ := (hinner.transparent _ _ _ _ hat₁).brace
    have htail := Segments.passes hnames
      ('\x7d' :: (inner.chars.reverse ++ ((spell text ++ ['$', '\x7b']).reverse ++ before))) hrest hclear (Nat.le_succ _) hat₂
    rw [← List.singleton_append (x := '\x60') (l := next), ← List.append_assoc] at hinnerPass
    have hpass := htextPass.append (hinnerPass.append (.cons hnames (by decide) htail))
    simpa only [Segments.chars, Segments.awaited, List.append_assoc, List.singleton_append, List.cons_append,
      List.nil_append] using hpass

end

theorem Source.sequenceCalls_chars {names : List String} (hnames : ∀ name ∈ names, Callable name) {src : Source}
    (hsrc : src.Spells names 0 []) (hclear : src.Clear names 0 .other) :
    sequenceCalls names src.chars = (src.awaited false).chars := by
  have hpass := Source.passes hnames hsrc hclear (fun _ h => by cases h) (.begin _)
    ((List.append_nil src.chars).symm ▸ At.begin src.chars)
  rwa [Passes, List.append_nil, sequenceFrom_end, List.append_nil] at hpass

end LiveSheet.Await
