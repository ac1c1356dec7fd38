import Mathlib
import LiveSheet.Proofs.Eval.SourceTokens
import LiveSheet.Proofs.Placeholder.Splitting

/-! Reading a variable by its name. The names that a set of variables takes are words; the language keeps some words for
itself, and such a word is no identifier, neither alone nor behind a dot. In brackets every name is a text. -/

namespace LiveSheet.Eval
open Await Token LiveSheet.Parser

variable {σ : Type} {env : Setting σ} {m : Machine σ} {text name : String} {cs : List Char} {ts : List Token} {e : Expr}
  {v : Value}

/-- The words that are no identifiers, each with what it evaluates to by itself. -/
def keywords : List (String × Except SheetError Value) :=
  [("true", .ok (.bool true)), ("false", .ok (.bool false)), ("null", .ok .null), ("undefined", .ok .null),
    ("this", .error (.evaluation .loneThis)), ("await", .error (.parse ⟨1, 6⟩ (.expectedExpression .eof))),
    ("let", .error (.parse ⟨1, 4⟩ (.expectedLetName .letWord))),
    ("const", .error (.parse ⟨1, 6⟩ (.expectedLetName .letWord))),
    ("var", .error (.parse ⟨1, 4⟩ (.expectedLetName .letWord)))]

theorem ofWord_of_not_keyword (h : name ∉ keywords.map Prod.fst) : ofWord name = .identifier name := by
  simp only [keywords, List.map_cons, List.map_nil, List.mem_cons, List.not_mem_nil, or_false, not_or] at h
  simp [ofWord, h]

theorem exec_evaluate_plain (h : ∀ c ∈ text.toList, c ≠ '(' ∧ c ≠ '\x7b') (env : Setting σ) (mode : Await.Mode)
    (m : Machine σ) : exec (evaluate env mode text) m =
      exec (ExceptT.mk (pure (Program.parse text)) >>= run env .null)
        { m with world := (m.world.sequence mode text).2 } := by
  have hcall : '(' ∉ text.toList := fun hmem => (h _ hmem).1 rfl
  have hbrace : Placeholder.Unmatched .source .code text.toList := fun front back heq _ =>
    absurd rfl (h '\x7b' (by simp [heq])).2
  rw [exec_evaluate, sequence_fst, sequence_of_not_mem hcall, Placeholder.expand,
    Placeholder.expandFrom_of_unmatched hbrace, Except.map, String.ofList_toList]
  simp only [exec_bind, exec_mk_pure]

theorem exec_evaluate_parsed {parsed : Except SheetError Program} {answer : Except SheetError Value}
    (h : ∀ c ∈ text.toList, c ≠ '(' ∧ c ≠ '\x7b') (hparse : Program.parse text = parsed)
    (hanswer : ∀ m' : Machine σ, m'.values = m.values → m'.locals = m.locals →
      (exec (ExceptT.mk (pure parsed) >>= run env .null) m').1 = answer) (mode : Await.Mode) :
    (exec (evaluate env mode text) m).1 = answer := by
  rw [exec_evaluate_plain h, hparse]
  exact hanswer _ rfl rfl

theorem Says.parse (h : Says cs ts) (he : ∀ template, Derives template .suffixed ts e) :
    Program.parse (String.ofList cs) = .ok [.expr e] := by
  obtain ⟨placed, hplaced, htokens⟩ := h.tokenize
  obtain ⟨phrase, rest, rfl, hphrase, hend⟩ := List.map_eq_append_iff.1 htokens
  obtain ⟨⟨_, p⟩, rfl, rfl⟩ := List.map_eq_singleton_iff.1 hend
  rw [Program.parse, String.toList_ofList, hplaced]
  exact (Printing.derives_phrase (.bare (he _))).program hphrase p

theorem exec_run_single (env : Setting σ) (e : Expr) (m : Machine σ) :
    exec (run env .null [.expr e]) m = exec (eval env false e) m := by
  rw [run, exec_bind]
  cases heval : exec (eval env false e) m with
  | mk answer m' => cases answer <;> rfl

/-! ## The texts that name a variable -/

theorem wordlike_of_isVariableName (h : Text.isVariableName name.toList = true) : Printing.Wordlike name := by
  have hparts := Text.isVariablePart_of_isVariableName h
  cases hchars : name.toList with
  | nil =>
    rw [hchars] at h
    cases h
  | cons c rest =>
    rw [hchars] at h hparts
    have hstart : Text.isVariableStart c = true := by
      simp only [Text.isVariableName, Bool.and_eq_true] at h
      exact h.1
    exact ⟨c, rest, hchars, Text.isNameStart_of_isVariableStart hstart, fun d hd =>
      Text.isNamePart_of_isVariablePart (hparts d (List.mem_cons_of_mem c hd))⟩

theorem says_name (h : Text.isVariableName name.toList = true) (hword : ofWord name = .identifier name) :
    Says name.toList [.identifier name] :=
  hword ▸ says_word (wordlike_of_isVariableName h) (hword ▸ rfl)

theorem says_this : Says "this".toList [.thisWord] := by
  have hword : ofWord "this" = .thisWord := by decide
  exact hword ▸ says_word ⟨'t', _, rfl, by decide, by decide⟩ (hword ▸ rfl)

theorem says_member (h : Text.isVariableName name.toList = true) (hword : ofWord name = .identifier name) :
    Says ("this.".toList ++ name.toList) [.thisWord, .dot, .identifier name] := by
  obtain ⟨c, rest, hchars, hc, _⟩ := wordlike_of_isVariableName h
  have hdigit : c.isDigit = false := not_isDigit_of_isNameStart hc
  intro nesting last next hnext
  have hclear : Clear ((Atom.mark .dot).chars ++ (name.toList ++ next)) := ⟨rfl, by rw [hchars]; exact hdigit⟩
  have hdot : (Atom.mark .dot).Fits (name.toList ++ next) := by
    rw [hchars]
    exact hdigit
  change lex nesting last ("this".toList ++ ((Atom.mark .dot).chars ++ (name.toList ++ next))) = _
  rw [says_this _ _ _ hclear, lex_atom hdot, says_name h hword _ _ _ hnext, Option.map_map, Option.map_map]
  rfl

theorem says_quoted_name (h : Text.isVariableName name.toList = true) :
    Says ('"' :: (name.toList ++ ['"'])) [.string name] := by
  have hparts := Text.isVariablePart_of_isVariableName h
  have hspell : spell (name.toList.map .plain) = name.toList := by simp [spell, Glyph.chars, List.flatMap_map]
  have hvalue : (name.toList.map Glyph.plain).map Glyph.value = name.toList := by simp [Glyph.value, Function.comp_def]
  have hfits : ∀ next, Clear next → (Atom.quoted '"' (name.toList.map .plain)).Fits next := by
    refine fun next _ => ⟨.inl rfl, List.forall_mem_map.2 fun c hc => ?_⟩
    refine ⟨?_, ?_, ?_⟩ <;> rintro rfl <;> exact absurd (hparts _ hc) (by decide)
  have hsays := says_atom hfits rfl
  rwa [Atom.chars, hspell, Atom.token, hvalue, String.ofList_toList] at hsays

theorem says_index (h : Text.isVariableName name.toList = true) :
    Says ("this[\"".toList ++ name.toList ++ "\"]".toList)
      [.thisWord, .leftBracket, .string name, .rightBracket] := by
  intro nesting last next _
  have hclear : Clear ('[' :: ('"' :: (name.toList ++ ['"']) ++ ']' :: next)) := clear_of_head (by decide) (by decide) _
  have hbracket : Clear (']' :: next) := clear_of_head (by decide) (by decide) next
  have hchars : "this[\"".toList ++ name.toList ++ "\"]".toList ++ next =
      "this".toList ++ '[' :: ('"' :: (name.toList ++ ['"']) ++ ']' :: next) := by simp
  rw [hchars, says_this _ _ _ hclear, lex_single (t := .leftBracket) rfl (by decide), says_quoted_name h _ _ _ hbracket,
    lex_single (t := .rightBracket) rfl (by decide), lex_operand (show fresh (some .rightBracket) = false from rfl)]
  simp only [Option.map_map]
  rfl

/-! ## What they evaluate to -/

theorem isVariableName_of_insert {set set' : VariableSet} {d : Variable} (h : set.insert d = .ok set') :
    Text.isVariableName d.name.toList = true := by
  rw [VariableSet.insert_eq] at h
  unfold Variable.fault? at h
  by_contra hname
  rw [if_pos (by simpa using hname)] at h
  cases h

theorem exec_evaluate_keyword {word : String} {answer : Except SheetError Value} (h : (word, answer) ∈ keywords)
    (env : Setting σ) (mode : Await.Mode) (m : Machine σ) :
    (exec (evaluate env mode word) m).1 = answer ∧
      (exec (evaluate env mode ("this." ++ word)) m).1 =
        .error (.parse ⟨1, word.length + 6⟩ (.expectedProperty (ofWord word))) := by
  simp only [keywords, List.mem_cons, List.not_mem_nil, or_false, Prod.mk.injEq] at h
  rcases h with h | h | h | h | h | h | h | h | h
  all_goals
    obtain ⟨rfl, rfl⟩ := h
    exact ⟨exec_evaluate_parsed (by decide) (by cbv) (fun _ _ _ => rfl) mode,
      exec_evaluate_parsed (by decide) (by cbv) (fun _ _ _ => rfl) mode⟩

theorem exec_evaluate_naming (h : Says text.toList ts) (he : ∀ template, Derives template .suffixed ts e)
    (hplain : ∀ c ∈ text.toList, c ≠ '(' ∧ c ≠ '\x7b') (mode : Await.Mode)
    (hvalue : ∀ m', m'.values = m.values → m'.locals = m.locals → exec (eval env false e) m' = (.ok v, m')) :
    (exec (evaluate env mode text) m).1 = .ok v := by
  have hparse := h.parse he
  rw [String.ofList_toList] at hparse
  refine exec_evaluate_parsed hplain hparse (fun m' hvalues hlocals => ?_) mode
  rw [exec_bind, exec_mk_pure]
  simp only [exec_run_single, hvalue m' hvalues hlocals]

/-- A variable is read by its name, bare and behind `this.`, if its name is no keyword. A keyword is accepted as a name
as well, but it keeps its own meaning and cannot stand behind a dot, whatever the variable holds; only in brackets it
still names the variable. -/
theorem evaluate_variable {set set' : VariableSet} {d : Variable} (hinsert : set.insert d = .ok set')
    (hvalue : m.values[d.name]? = some v) (hlocal : m.locals[d.name]? = none) (env : Setting σ) (mode : Await.Mode) :
    (d.name ∉ keywords.map Prod.fst → (exec (evaluate env mode d.name) m).1 = .ok v ∧
      (exec (evaluate env mode ("this." ++ d.name)) m).1 = .ok v) ∧
    (∀ answer, (d.name, answer) ∈ keywords → (exec (evaluate env mode d.name) m).1 = answer ∧
      (exec (evaluate env mode ("this." ++ d.name)) m).1 =
        .error (.parse ⟨1, d.name.length + 6⟩ (.expectedProperty (ofWord d.name)))) ∧
    (exec (evaluate env mode ("this[\"" ++ d.name ++ "\"]")) m).1 = .ok v := by
  have hname := isVariableName_of_insert hinsert
  have hparts := Text.isVariablePart_of_isVariableName hname
  have hplain : ∀ c ∈ d.name.toList, c ≠ '(' ∧ c ≠ '\x7b' := by
    intro c hc
    constructor <;> rintro rfl <;> exact absurd (hparts _ hc) (by decide)
  refine ⟨fun hword => ⟨?_, ?_⟩, fun answer h => exec_evaluate_keyword h env mode m, ?_⟩
  · refine exec_evaluate_naming (says_name hname (ofWord_of_not_keyword hword))
      (fun _ => .operandOnly (.identifier d.name)) hplain mode fun m' hvalues hlocals => ?_
    exact exec_nameValue_of_value (hvalues ▸ hvalue) (hlocals ▸ hlocal) env
  · have hsays := says_member hname (ofWord_of_not_keyword hword)
    rw [← String.toList_append] at hsays
    have hplain' : ∀ c ∈ ("this." ++ d.name).toList, c ≠ '(' ∧ c ≠ '\x7b' := by
      rw [String.toList_append]
      exact List.forall_mem_append.2 ⟨by decide, hplain⟩
    refine exec_evaluate_naming (e := .member .self d.name) hsays (fun _ => .member (.operandOnly .this)) hplain' mode
      fun m' hvalues _ => ?_
    exact exec_variableValue (hvalues ▸ hvalue) env
  · have hsays := says_index hname
    rw [← String.toList_append, ← String.toList_append] at hsays
    have hplain' : ∀ c ∈ ("this[\"" ++ d.name ++ "\"]").toList, c ≠ '(' ∧ c ≠ '\x7b' := by
      rw [String.toList_append, String.toList_append]
      exact List.forall_mem_append.2 ⟨List.forall_mem_append.2 ⟨by decide, hplain⟩, by decide⟩
    refine exec_evaluate_naming (e := .index .self (.string d.name)) hsays
      (fun template => .index (.operandOnly .this)
        (Printing.derives_phrase (.bare (.operandOnly (.string d.name))))) hplain' mode fun m' hvalues _ => ?_
    exact exec_variableValue (hvalues ▸ hvalue) env

def brimming (name : String) : Variable := ⟨name, .literal (.string "full"), none, none⟩

def poured (name : String) : Machine Unit :=
  ⟨.start () .none, (∅ : NameMap Value).insert name (.string "full"), ∅, none⟩

theorem insert_brimming {name : String} (h : Text.isVariableName name.toList = true) :
    VariableSet.empty.insert (brimming name) = .ok (VariableSet.empty.put (brimming name)) := by
  have hfault : (brimming name).fault? = none := by simp [Variable.fault?, brimming, h]
  rw [VariableSet.insert_eq, hfault]

theorem values_poured (name : String) : (poured name).values[name]? = some (.string "full") := by
  rw [poured, NameMap.get?_insert, if_pos rfl]

theorem evaluate_variable_hp :
    VariableSet.empty.insert (brimming "hp") = .ok (VariableSet.empty.put (brimming "hp")) ∧
    (poured "hp").values["hp"]? = some (.string "full") ∧ (poured "hp").locals["hp"]? = none ∧
    (exec (evaluate ⟨.empty, ∅⟩ .expression "hp") (poured "hp")).1 = .ok (.string "full") ∧
    (exec (evaluate ⟨.empty, ∅⟩ .expression "this.hp") (poured "hp")).1 = .ok (.string "full") := by
  have hword : Text.isVariableName "hp".toList = true := by decide
  have hinsert := insert_brimming hword
  have hvalue := values_poured "hp"
  obtain ⟨hname, -, -⟩ := evaluate_variable hinsert hvalue rfl ⟨.empty, ∅⟩ .expression
  obtain ⟨hbare, hmember⟩ := hname (by decide)
  exact ⟨hinsert, hvalue, rfl, hbare, hmember⟩

/-- A variable of the name `true` is accepted, and neither the name nor `this.true` reads it. -/
theorem evaluate_variable_true :
    VariableSet.empty.insert (brimming "true") = .ok (VariableSet.empty.put (brimming "true")) ∧
    (poured "true").values["true"]? = some (.string "full") ∧
    (exec (evaluate ⟨.empty, ∅⟩ .expression "true") (poured "true")).1 ≠ .ok (.string "full") ∧
    (exec (evaluate ⟨.empty, ∅⟩ .expression "this.true") (poured "true")).1 ≠ .ok (.string "full") := by
  have hkeyword : ("true", .ok (.bool true)) ∈ keywords := List.mem_cons_self
  obtain ⟨hbare, hmember⟩ := exec_evaluate_keyword hkeyword ⟨.empty, ∅⟩ .expression (poured "true")
  refine ⟨insert_brimming (by decide), values_poured "true", ?_, ?_⟩
  · rw [hbare]
    rintro ⟨⟩
  · rw [show "this.true" = "this." ++ "true" from rfl, hmember]
    rintro ⟨⟩

end LiveSheet.Eval
