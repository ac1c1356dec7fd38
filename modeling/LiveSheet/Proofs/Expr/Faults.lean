import LiveSheet.Proofs.Token.Layout
import LiveSheet.Proofs.Expr.Descent

/-! What reading a script can fail with. Every failure of the lexer and of the descent has a place and says what is
wrong there. -/

namespace LiveSheet

namespace Template

/-- The code inside a template is not longer than the template, or runs on without an end. -/
theorem code_cases {depth column start : Nat} {cs : List Char} {body : Except SheetError (List Char)}
    (h : .code body ∈ pieces depth column start cs) :
    (∃ inner, body = .ok inner ∧ inner.length ≤ cs.length) ∨ ∃ p f, body = .error (.parse p f) := by
  have hlonger : ∀ {n : Nat} {body : Except SheetError (List Char)},
      (∃ inner, body = .ok inner ∧ inner.length ≤ n) ∨ (∃ p f, body = .error (.parse p f)) →
      (∃ inner, body = .ok inner ∧ inner.length ≤ n + 1) ∨ ∃ p f, body = .error (.parse p f) := by
    rintro n _ (⟨inner, rfl, hle⟩ | h)
    · exact .inl ⟨inner, rfl, Nat.le_succ_of_le hle⟩
    · exact .inr h
  have haddText : ∀ {c ps body}, .code body ∈ addText c ps → .code body ∈ ps := by
    intro c ps body hmem
    unfold addText at hmem
    split at hmem <;> simpa using hmem
  fun_induction pieces depth column start cs generalizing body with
  | case1 => cases h
  | case2 =>
    cases List.mem_singleton.1 h
    exact .inr ⟨_, _, rfl⟩
  | case3 =>
    rename_i ih
    rcases List.mem_cons.1 h with heq | hmem
    · cases heq
      exact .inl ⟨[], rfl, Nat.zero_le _⟩
    · exact hlonger (ih hmem)
  | case4 =>
    rename_i ih
    unfold addCode at h
    split at h
    · next heq =>
      rw [heq] at ih
      rcases List.mem_cons.1 h with hbody | hmem
      · rw [Piece.code.inj hbody]
        rcases ih List.mem_cons_self with ⟨inner, rfl, hle⟩ | ⟨p, f, rfl⟩
        · exact .inl ⟨_, rfl, Nat.succ_le_succ hle⟩
        · exact .inr ⟨p, f, rfl⟩
      · exact hlonger (ih (List.mem_cons_of_mem _ hmem))
    · exact hlonger (ih h)
  | case6 => cases List.mem_singleton.1 h
  | case7 =>
    rename_i ih
    exact hlonger (hlonger (ih h))
  | case5 =>
    rename_i ih
    exact hlonger (hlonger (ih (haddText h)))
  | case8 | case9 =>
    rename_i ih
    exact hlonger (ih (haddText h))

end Template

namespace Parser

/-- If it fails then for what is written. -/
def Faulty {α : Type} (r : Except SheetError α) : Prop := ∀ e, r = .error e → ∃ p f, e = .parse p f

variable {α β : Type} {r : Except SheetError α} {template : String → Except SheetError (List (Part Expr))} {n : Nat}

theorem faulty_ok (a : α) : Faulty (.ok a) := by
  rintro e ⟨⟩

theorem faulty_fault (ts : Tokens) (f : Token → SyntaxFault) : Faulty (fault ts f : Except SheetError α) := by
  rintro e h
  cases ts <;> cases h <;> exact ⟨_, _, rfl⟩

theorem faulty_fail (p : Position) (f : SyntaxFault) : Faulty (Token.fail p f : Except SheetError α) := by
  rintro e ⟨⟩
  exact ⟨p, f, rfl⟩

theorem Faulty.bind {f : α → Except SheetError β} (h : Faulty r) (hf : ∀ a, Faulty (f a)) : Faulty (r >>= f) := by
  rintro e he
  cases r with
  | error e' => exact h e (congrArg Except.error (Except.error.inj he))
  | ok a => exact hf a e he

theorem Faulty.map (f : α → β) (h : Faulty r) : Faulty (r.map f) := by
  rintro e he
  cases r with
  | error e' => exact h e (congrArg Except.error (Except.error.inj he))
  | ok a => cases he

/-! ## Tokens -/

theorem faulty_readNumber (c : Char) (cs : List Char) (p : Position) : Faulty (Token.readNumber c cs p) := by
  simp only [Token.readNumber]
  split
  · exact faulty_ok _
  · exact faulty_fail _ _

theorem faulty_stringText (quote : Char) (cs : List Char) (p : Position) : Faulty (Token.stringText quote cs p) := by
  fun_induction Token.stringText quote cs p with
  | case1 => exact faulty_fail _ _
  | case2 => exact faulty_fail _ _
  | case3 => exact faulty_ok _
  | case4 => exact faulty_fail _ _
  | case5 _ _ _ _ _ ih => exact ih.map _
  | case6 _ _ _ _ _ _ ih => exact ih.map _

theorem faulty_templateText (depth : Nat) (cs : List Char) (p : Position) : Faulty (Token.templateText depth cs p) := by
  fun_induction Token.templateText depth cs p with
  | case1 => exact faulty_fail _ _
  | case3 => exact faulty_ok _
  | case4 => exact faulty_fail _ _
  | case2 | case5 | case6 | case7 | case8 =>
    rename_i ih
    exact ih.map _

theorem faulty_readPair (c : Char) (both : Token) (cs : List Char) (p : Position) :
    Faulty (Token.readPair c both cs p) := by
  unfold Token.readPair
  split
  · split
    · exact faulty_ok _
    · exact faulty_fail _ _
  · exact faulty_fail _ _

theorem faulty_read (c : Char) (cs : List Char) (p : Position) : Faulty (Token.read c cs p) := by
  unfold Token.read
  split
  · exact faulty_ok _
  · exact faulty_ok _
  · exact faulty_ok _
  · exact faulty_ok _
  · exact faulty_readPair _ _ _ _
  · exact faulty_readPair _ _ _ _
  · split
    · exact faulty_readNumber _ _ _
    · exact faulty_ok _
  · exact (faulty_stringText _ _ _).map _
  · exact (faulty_stringText _ _ _).map _
  · exact (faulty_templateText _ _ _).map _
  · split
    · exact faulty_ok _
    · split
      · exact faulty_readNumber _ _ _
      · split
        · exact faulty_ok _
        · exact faulty_fail _ _

theorem faulty_scan (nesting : Nat) (last : Option Token) (cs : List Char) (p : Position) :
    Faulty (Token.scan nesting last cs p) := by
  fun_induction Token.scan nesting last cs p with
  | case1 => exact faulty_ok _
  | case2 _ _ _ _ _ _ _ _ ih => exact ih.map _
  | case3 _ _ _ _ _ _ _ _ ih => exact ih
  | case4 =>
    rename_i hread
    rintro _ ⟨⟩
    exact faulty_read _ _ _ _ hread
  | case5 _ _ _ _ _ _ _ _ _ _ _ ih => exact ih.map _

/-! ## The descent -/

theorem faulty_expect (token : Token) (f : Token → SyntaxFault) (ts : Tokens) : Faulty (expect token f ts) := by
  unfold expect
  split
  · split
    · exact faulty_ok _
    · exact faulty_fault _ _
  · exact faulty_fault _ _

theorem faulty_nameAfter (before : Token) (f : Token → SyntaxFault) (ts : Tokens) : Faulty (nameAfter before f ts) := by
  unfold nameAfter
  split
  · exact faulty_ok _
  · exact faulty_fault _ _
  · exact faulty_fault _ _
  · exact faulty_fault _ _

/-- The functions of the descent fail within a bound as they should. -/
structure Faults (template : String → Except SheetError (List (Part Expr))) (n : Nat) : Prop where
  ternary (ts : Tokens) : Faulty (ternary template n ts)
  binary (level : Nat) (ts : Tokens) : Faulty (binary template n level ts)
  binaryRest (level : Nat) (l : Expr) (ts : Tokens) : Faulty (binaryRest template n level l ts)
  unary (ts : Tokens) : Faulty (unary template n ts)
  suffixes (e : Expr) (ts : Tokens) : Faulty (suffixes template n e ts)
  arguments (close : Token) (unclosed : Token → SyntaxFault) (ts : Tokens) :
    Faulty (arguments template n close unclosed ts)
  primary (ts : Tokens) : Faulty (primary template n ts)

theorem faults (htemplate : ∀ raw, Faulty (template raw)) (n : Nat) : Faults template n := by
  induction n with
  | zero =>
    exact ⟨fun ts => faulty_fault ts _, fun _ ts => faulty_fault ts _, fun _ _ ts => faulty_fault ts _,
      fun ts => faulty_fault ts _, fun _ ts => faulty_fault ts _, fun _ _ ts => faulty_fault ts _,
      fun ts => faulty_fault ts _⟩
  | succ n ih =>
    refine ⟨fun ts => ?_, fun level ts => ?_, fun level l ts => ?_, fun ts => ?_, fun e ts => ?_,
      fun close unclosed ts => ?_, fun ts => ?_⟩
    · rw [Parser.ternary]
      refine (ih.binary 0 ts).bind ?_
      rintro ⟨c, ts⟩
      simp only
      split
      · exact (ih.ternary _).bind fun _ => (faulty_expect _ _ _).bind fun _ => (ih.ternary _).bind fun _ => faulty_ok _
      · exact faulty_ok _
    · rw [Parser.binary]
      split
      · exact (ih.binary _ ts).bind fun x => ih.binaryRest level x.1 x.2
      · exact ih.unary ts
    · rw [Parser.binaryRest.eq_def]
      simp only
      split
      · exact faulty_ok _
      · split
        · exact faulty_ok _
        · exact (ih.binary _ _).bind fun _ => ih.binaryRest _ _ _
    · rw [Parser.unary.eq_def]
      simp only
      split
      · exact (ih.unary _).map _
      · exact (ih.unary _).map _
      · exact (ih.unary _).map _
      · exact (ih.unary _).map _
      · exact (ih.primary _).bind fun x => ih.suffixes x.1 x.2
    · rw [Parser.suffixes.eq_def]
      simp only
      split
      · exact (ih.arguments _ _ _).bind fun x => ih.suffixes _ x.2
      · exact (faulty_nameAfter _ _ _).bind fun x => ih.suffixes _ x.2
      · exact (ih.ternary _).bind fun _ => (faulty_expect _ _ _).bind fun ts => ih.suffixes _ ts
      · exact faulty_ok _
    · rw [Parser.arguments.eq_def]
      simp only
      split
      · exact faulty_fault _ _
      · split
        · exact faulty_ok _
        · refine (ih.ternary _).bind ?_
          rintro ⟨e, ts⟩
          simp only
          split
          · exact (ih.arguments _ _ _).bind fun _ => faulty_ok _
          · exact (faulty_expect _ _ _).bind fun _ => faulty_ok _
    · rw [Parser.primary.eq_def]
      simp only
      split
      case h_3 => exact (htemplate _).map _
      case h_9 => exact (ih.ternary _).bind fun _ => (faulty_expect _ _ _).bind fun _ => faulty_ok _
      case h_10 => exact (ih.arguments _ _ _).map _
      case h_11 => exact faulty_fault _ _
      all_goals exact faulty_ok _

theorem faulty_expression (htemplate : ∀ raw, Faulty (template raw)) (ts : Tokens) : Faulty (expression template ts) :=
  (faults htemplate _).ternary ts

theorem faulty_parts {parse : List Char → Except SheetError Expr} (hparse : ∀ cs, Faulty (parse cs)) (raw : String) :
    Faulty (Template.parts parse raw) := by
  have hcode : ∀ body, .code body ∈ Template.pieces 0 1 0 raw.toList → Faulty body := by
    intro body hmem
    rcases Template.code_cases hmem with ⟨inner, rfl, _⟩ | ⟨p, f, rfl⟩
    · exact faulty_ok _
    · rintro _ ⟨⟩
      exact ⟨p, f, rfl⟩
  unfold Template.parts
  generalize Template.pieces 0 1 0 raw.toList = pieces at hcode
  induction pieces with
  | nil => exact faulty_ok _
  | cons piece pieces ih =>
    rw [List.mapM_cons]
    refine Faulty.bind ?_ fun part =>
      (ih fun body hmem => hcode body (List.mem_cons_of_mem _ hmem)).bind fun parts => faulty_ok _
    split
    · exact faulty_ok _
    · next body => exact (hcode body List.mem_cons_self).bind fun cs => (hparse cs).map _

theorem faulty_expressionOf (depth : Nat) (cs : List Char) : Faulty (expressionOf depth cs) := by
  induction depth generalizing cs with
  | zero =>
    rintro _ ⟨⟩
    exact ⟨_, _, rfl⟩
  | succ depth ih =>
    refine (faulty_scan _ _ _ _).bind fun ts => (faulty_expression (faulty_parts ih) ts).bind fun (e, ts) => ?_
    simp only
    split
    · exact faulty_ok _
    · exact faulty_fault _ _

theorem faulty_statement (htemplate : ∀ raw, Faulty (template raw)) (ts : Tokens) : Faulty (statement template ts) := by
  unfold statement
  split
  · refine (faulty_nameAfter _ _ _).bind fun (name, ts) => (faulty_expect _ _ _).bind fun ts => ?_
    exact (faulty_expression htemplate ts).bind fun (e, ts) => faulty_ok _
  · exact (faulty_expression htemplate _).map _

theorem faulty_statements (htemplate : ∀ raw, Faulty (template raw)) (n : Nat) (ts : Tokens) :
    Faulty (statements template n ts) := by
  induction n generalizing ts with
  | zero => exact faulty_fault ts _
  | succ n ih =>
    unfold statements
    split
    · exact faulty_ok _
    · exact faulty_ok _
    · exact ih _
    · exact ih _
    · refine (faulty_statement htemplate _).bind fun (s, ts) => ?_
      simp only
      split
      · exact (ih _).bind fun ps => faulty_ok _
      · exact (ih _).bind fun ps => faulty_ok _
      · exact (ih _).bind fun ps => faulty_ok _
      · exact (ih _).bind fun ps => faulty_ok _
      · exact faulty_fault _ _

theorem faulty_parse (text : String) : Faulty (Program.parse text) :=
  (faulty_scan _ _ _ _).bind fun ts => faulty_statements (faulty_parts (faulty_expressionOf _)) _ ts

end Parser

end LiveSheet
