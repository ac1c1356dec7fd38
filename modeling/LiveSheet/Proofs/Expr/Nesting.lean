import LiveSheet.Proofs.Expr.Faults
import LiveSheet.Proofs.Expr.Joining
import LiveSheet.Proofs.Token.Resume

/-! The bound on the nesting of templates. A template is longer than the code inside it, so the length of a text is a
bound that always suffices, and a larger one changes nothing. -/

namespace LiveSheet

namespace Token

variable {c : Char} {cs rest : List Char} {p : Position} {raw : String} {nesting : Nat} {last : Option Token}
  {chunks : List Chunk}

theorem length_templateText {depth : Nat} {x : Stretch} (h : templateText depth cs p = .ok x) :
    x.text.length + x.rest.length + 1 ≤ cs.length := by
  have hput : ∀ {text rest : List Char} {r : Except SheetError Stretch} {x : Stretch}, put text r = .ok x →
      (∀ {y : Stretch}, r = .ok y → y.text.length + y.rest.length + 1 ≤ rest.length) →
      x.text.length + x.rest.length + 1 ≤ text.length + rest.length := by
    intro text rest r x h hr
    obtain ⟨y, hy, rfl⟩ := exists_of_map h
    have := hr hy
    simp only [List.length_append]
    omega
  have hraw : ∀ e, (rawEscape e).length ≤ 2 := by
    intro e
    simp only [rawEscape]
    split <;> simp
  fun_induction templateText depth cs p generalizing x with
  | case1 => cases h
  | case2 =>
    rename_i ih
    simpa [Nat.add_comm] using hput h ih
  | case3 =>
    cases h
    simp
  | case4 => cases h
  | case5 _ _ _ e _ _ ih =>
    have := hput h ih
    have := hraw e
    simp only [List.length_cons]
    omega
  | case6 _ _ _ _ _ _ ih =>
    have := hput h ih
    simp only [List.length_cons, List.length_nil] at this ⊢
    omega
  | case7 _ _ _ _ _ _ _ ih => simpa [Nat.add_comm] using hput h ih
  | case8 =>
    rename_i ih
    simpa [Nat.add_comm] using hput h ih

theorem readNumber_ne_template {x : Lexeme} (h : readNumber c rest p = .ok x) : x.token ≠ .template raw := by
  simp only [readNumber] at h
  split at h
  · cases h
    simp
  · cases h

theorem readPair_ne_template {both : Token} {x : Lexeme} (h : readPair c both rest p = .ok x)
    (hboth : both ≠ .template raw) : x.token ≠ .template raw := by
  unfold readPair at h
  split at h
  · split at h
    · cases h
      exact hboth
    · cases h
  · cases h

theorem readString_ne_template {x : Lexeme} (h : readString c rest p = .ok x) : x.token ≠ .template raw := by
  obtain ⟨_, _, rfl⟩ := exists_of_map h
  simp

theorem single?_ne_template : single? c ≠ some (.template raw) := by
  unfold single?
  split <;> simp

theorem ofWord_ne_template (word : String) : ofWord word ≠ .template raw := by
  unfold ofWord
  split_ifs <;> simp

theorem length_template {x : Lexeme} (h : read c rest p = .ok x) (hx : x.token = .template raw) :
    raw.toList.length + x.rest.length + 1 ≤ rest.length := by
  unfold Token.read at h
  split at h
  · cases h
    unfold readComparison at hx
    split at hx <;> cases hx
  · cases h
    unfold readComparison at hx
    split at hx <;> cases hx
  · cases h
    unfold readOrder at hx
    split at hx <;> cases hx
  · cases h
    unfold readOrder at hx
    split at hx <;> cases hx
  · exact absurd hx (readPair_ne_template h (by simp))
  · exact absurd hx (readPair_ne_template h (by simp))
  · split at h
    · exact absurd hx (readNumber_ne_template h)
    · cases h
      cases hx
  · exact absurd hx (readString_ne_template h)
  · exact absurd hx (readString_ne_template h)
  · obtain ⟨y, hy, rfl⟩ := exists_of_map h
    cases hx
    have := length_templateText hy
    rw [String.toList_ofList]
    omega
  · split at h
    · next t ht =>
      cases h
      exact absurd (ht.trans (congrArg some hx)) single?_ne_template
    · split at h
      · exact absurd hx (readNumber_ne_template h)
      · split at h
        · cases h
          exact absurd hx (ofWord_ne_template _)
        · cases h

theorem Laid.length_template (h : Laid nesting last cs chunks) (hraw : .template raw ∈ tokens chunks) :
    raw.toList.length < cs.length := by
  induction h with
  | done => cases hraw
  | @lineEnd nesting last _ rest chunks _ _ ih =>
    have hmem : .template raw ∈ tokens chunks := by
      cases hseparates : separates nesting last <;> rw [hseparates] at hraw <;>
        simpa [tokens, Chunk.token?, newline] using hraw
    have := ih hmem
    simp only [List.length_append, List.length_cons]
    omega
  | @token _ _ _ text left _ c t chunks _ _ hlexes _ ih =>
    have hmem : .template raw = t ∨ .template raw ∈ tokens chunks := by
      simpa [tokens, Chunk.token?] using hraw
    simp only [List.length_append, List.length_cons]
    rcases hmem with rfl | hmem
    · have hread := hlexes.read [] .nil ⟨1, 1⟩
      have := Token.length_template hread rfl
      simp only [List.append_nil, List.length_append] at this
      omega
    · have := ih hmem
      omega

end Token

namespace Template

theorem length_code {depth column start : Nat} {cs body : List Char}
    (h : .code (.ok body) ∈ pieces depth column start cs) : body.length ≤ cs.length := by
  rcases code_cases h with ⟨inner, heq, hle⟩ | ⟨p, f, heq⟩
  · rwa [Except.ok.inj heq]
  · cases heq

end Template

namespace Parser

variable {cs : List Char} {e : Expr} {ps : Program}

theorem expressionOf_length {depth : Nat} (h : expressionOf depth cs = .ok e) :
    expressionOf (cs.length + 1) cs = .ok e := by
  induction hlength : cs.length using Nat.strongRecOn generalizing cs depth e with
  | _ n ih =>
    subst hlength
    cases depth with
    | zero => cases h
    | succ depth =>
      rw [expressionOf] at h ⊢
      obtain ⟨ts, hts, h⟩ := bind_eq_ok.1 h
      refine bind_eq_ok.2 ⟨ts, hts, only_mono_of_mem h fun raw parts hmem hparts => parts_mono hparts ?_⟩
      intro body e hbody he
      have hraw : raw.toList.length < cs.length := by
        obtain ⟨chunks, hlaid⟩ := Token.exists_laid hts
        refine hlaid.length_template ?_
        rw [Except.ok.inj (hts.symm.trans (hlaid.scan_eq ⟨1, 1⟩)), List.map_append, Token.map_token_placed] at hmem
        simpa using hmem
      have hshorter := Template.length_code hbody
      exact expressionOf_mono (by omega) (ih body.length (by omega) he rfl)

/-- How a template is split whatever it stands in. -/
def partsOf (raw : String) : Except SheetError (List (Part Expr)) :=
  Template.parts (expressionOf (raw.toList.length + 1)) raw

theorem extends_partsOf (depth : Nat) : Extends (Template.parts (expressionOf depth)) partsOf := fun _ _ hparts =>
  parts_mono hparts fun _ _ hbody he =>
    expressionOf_mono (Nat.succ_le_succ (Template.length_code hbody)) (expressionOf_length he)

/-- A text is read as a script exactly where its tokens have the form of one. -/
theorem parse_eq_ok_iff : Program.parse (String.ofList cs) = .ok ps ↔
    ∃ us, Token.lex 0 none cs = some (us ++ [.eof]) ∧ Scripted partsOf us ps := by
  constructor
  · intro h
    obtain ⟨chunks, hlaid, hps⟩ := exists_scripted h
    rw [String.toList_ofList] at hlaid
    exact ⟨_, Token.lex_eq_some.2 ⟨chunks, hlaid, rfl⟩, hps.mono (extends_partsOf _)⟩
  · rintro ⟨us, hus, hps⟩
    obtain ⟨chunks, hlaid, heq⟩ := Token.lex_eq_some.1 hus
    obtain rfl := List.append_cancel_right heq
    refine bind_eq_ok.2 ⟨_, by rw [String.toList_ofList]; exact hlaid.scan_eq ⟨1, 1⟩, ?_⟩
    refine (program_eq_ok_iff (by simp [Token.map_token_placed]) hlaid.eof_not_mem).2 (hps.mono_of_mem ?_)
    intro raw parts hmem hparts
    have hraw := hlaid.length_template hmem
    rw [String.length_ofList]
    exact parts_mono hparts fun body e _ he => expressionOf_mono (by omega) he

end Parser

end LiveSheet
