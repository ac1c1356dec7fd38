import Mathlib
import LiveSheet.Proofs.Reference.Placeholders
import LiveSheet.Proofs.Text.Braces

/-! Expansion piece by piece. A text whose opening braces are closed within it is expanded by itself, whatever stands
behind it; braces without a partner stay; and the only thing that can go wrong is a name that is not known. -/

namespace LiveSheet.Placeholder

variable {lookup : String → Option Value} {mode : Mode} {quoting : Text.Quoting} {cs xs inner rest : List Char}
  {c : Char}

/-- Braces that open in code are closed within the text. -/
def Closed (mode : Mode) (quoting : Text.Quoting) (cs : List Char) : Prop :=
  ∀ front back, cs = front ++ '\x7b' :: back → mode.afterAll front quoting = .code → Text.HoldsClosing back

/-- No brace that opens in code is closed. -/
def Unmatched (mode : Mode) (quoting : Text.Quoting) (cs : List Char) : Prop :=
  ∀ front back, cs = front ++ '\x7b' :: back → mode.afterAll front quoting = .code → ¬Text.HoldsClosing back

theorem afterAll_append (mode : Mode) (xs ys : List Char) (quoting : Text.Quoting) :
    mode.afterAll (xs ++ ys) quoting = mode.afterAll ys (mode.afterAll xs quoting) := List.foldl_append

theorem after_brace (mode : Mode) : mode.after '\x7b' .code = .code := by cases mode <;> rfl

theorem afterAll_brace (mode : Mode) (cs : List Char) :
    mode.afterAll ('\x7b' :: cs) .code = mode.afterAll cs .code := by
  rw [Mode.afterAll, List.foldl_cons, after_brace, Mode.afterAll]

theorem afterAll_display (cs : List Char) : Mode.display.afterAll cs .code = .code := by
  induction cs with
  | nil => rfl
  | cons c cs ih => exact ih

theorem Closed.behind (h : Closed mode quoting (xs ++ cs)) : Closed mode (mode.afterAll xs quoting) cs := by
  intro front back heq hcode
  refine h (xs ++ front) back (by rw [heq, List.append_assoc]) ?_
  rw [afterAll_append, hcode]

theorem closed_of_not_mem (h : '\x7b' ∉ cs) : Closed mode quoting cs :=
  fun front _ heq _ => absurd (heq ▸ List.mem_append_right front List.mem_cons_self) h

theorem Unmatched.behind (h : Unmatched mode quoting (c :: cs)) : Unmatched mode (mode.after c quoting) cs := by
  intro front back heq hcode
  exact h (c :: front) back (by rw [heq, List.cons_append]) hcode

/-- Expansion goes through a text whose braces are closed within it, and then through what stands behind it. -/
theorem expandFrom_append (h : Closed mode quoting xs) (ys : List Char) :
    expandFrom lookup mode quoting (xs ++ ys) = (do
      let shown ← expandFrom lookup mode quoting xs
      let rest ← expandFrom lookup mode (mode.afterAll xs quoting) ys
      return shown ++ rest) := by
  induction hlength : xs.length using Nat.strongRecOn generalizing xs quoting with
  | _ n ih =>
    subst hlength
    cases xs with
    | nil =>
      rw [expandFrom, List.nil_append, show mode.afterAll [] quoting = quoting from rfl]
      cases expandFrom lookup mode quoting ys <;> rfl
    | cons c xs =>
      by_cases hbrace : c = '\x7b' ∧ quoting = .code
      · obtain ⟨rfl, rfl⟩ := hbrace
        obtain ⟨inner, rest, hsplit⟩ := Text.holdsClosing_iff.1 (h [] xs rfl rfl)
        obtain ⟨rfl, heven⟩ := Text.splitBrace_one_eq_some_iff.1 hsplit
        have hsplit' : Text.splitBrace 1 (inner ++ '\x7d' :: rest ++ ys) = some (inner, rest ++ ys) :=
          Text.splitBrace_one_eq_some_iff.2 ⟨by simp, heven⟩
        have hstate : mode.afterAll ('\x7b' :: (inner ++ ['\x7d'])) .code = mode.afterAll (inner ++ ['\x7d']) .code :=
          afterAll_brace mode _
        have hrest : Closed mode (mode.afterAll (inner ++ ['\x7d']) .code) rest := by
          rw [← hstate]
          exact Closed.behind (by simpa using h)
        have hend : mode.afterAll ('\x7b' :: (inner ++ '\x7d' :: rest)) .code =
            mode.afterAll rest (mode.afterAll (inner ++ ['\x7d']) .code) := by
          rw [← hstate, ← afterAll_append]
          simp
        rw [List.cons_append, expandFrom_brace hsplit', expandFrom_brace hsplit, hend,
          ih rest.length (by simp; omega) hrest rfl]
        simp only [bind_assoc, pure_bind, List.append_assoc]
      · have htail : Closed mode (mode.after c quoting) xs := by
          rw [← List.singleton_append] at h
          exact h.behind
        have hend : mode.afterAll (c :: xs) quoting = mode.afterAll xs (mode.after c quoting) := rfl
        rw [List.cons_append, expandFrom_plain hbrace, expandFrom_plain hbrace, ih xs.length (by simp) htail rfl, hend]
        cases expandFrom lookup mode (mode.after c quoting) xs with
        | error e => rfl
        | ok shown => cases expandFrom lookup mode (mode.afterAll xs (mode.after c quoting)) ys <;> rfl

theorem expandFrom_of_unmatched (h : Unmatched mode quoting cs) : expandFrom lookup mode quoting cs = .ok cs := by
  induction cs generalizing quoting with
  | nil => rw [expandFrom]
  | cons c cs ih =>
    by_cases hbrace : c = '\x7b' ∧ quoting = .code
    · obtain ⟨rfl, rfl⟩ := hbrace
      have hnone := Text.splitBrace_eq_none (h [] cs rfl rfl)
      have htail := h.behind
      rw [after_brace] at htail
      rw [expandFrom_open hnone, ih htail]
      rfl
    · rw [expandFrom_plain hbrace, ih h.behind]
      rfl

theorem replacement_error {e : SheetError} (h : replacement lookup mode inner = .error e) :
    ∃ name, e = .unknownVariable name ∧ lookup name = none := by
  unfold replacement at h
  cases hr : reference? inner with
  | none =>
    rw [hr] at h
    cases h
  | some r =>
    rw [hr] at h
    have hvalue := Parser.map_eq_error.1 h
    unfold value at hvalue
    cases hv : lookup r.name with
    | none =>
      rw [hv] at hvalue
      cases hvalue
      exact ⟨r.name, rfl, hv⟩
    | some v =>
      rw [hv] at hvalue
      cases hindex : r.index <;> rw [hindex] at hvalue <;> cases hvalue

theorem expandFrom_error {e : SheetError} (h : expandFrom lookup mode quoting cs = .error e) :
    ∃ name, e = .unknownVariable name ∧ lookup name = none := by
  induction hlength : cs.length using Nat.strongRecOn generalizing cs quoting with
  | _ n ih =>
    subst hlength
    cases cs with
    | nil =>
      rw [expandFrom] at h
      cases h
    | cons c cs =>
      by_cases hbrace : c = '\x7b' ∧ quoting = .code
      · obtain ⟨rfl, rfl⟩ := hbrace
        cases hsplit : Text.splitBrace 1 cs with
        | none =>
          rw [expandFrom_open hsplit, Parser.map_eq_error] at h
          exact ih cs.length (by simp) h rfl
        | some split =>
          obtain ⟨inner, rest⟩ := split
          have hlength : inner.length < ('\x7b' :: cs).length ∧ rest.length < ('\x7b' :: cs).length := by
            rw [Text.eq_of_splitBrace hsplit]
            simp
            omega
          -- What is in the braces, its value, or what stands behind them.
          rw [expandFrom_brace hsplit] at h
          obtain h | ⟨inner', -, h⟩ := Parser.bind_eq_error.1 h
          · exact ih inner.length hlength.1 h rfl
          obtain h | ⟨shown, -, h⟩ := Parser.bind_eq_error.1 h
          · exact replacement_error h
          obtain h | ⟨rest', -, h⟩ := Parser.bind_eq_error.1 h
          · exact ih rest.length hlength.2 h rfl
          · cases h
      · rw [expandFrom_plain hbrace, Parser.map_eq_error] at h
        exact ih cs.length (by simp) h rfl

/-- A label is expanded piece by piece: a text in which every opening brace has its closing one, and then what stands
behind it. Without a pair of braces a text stays as it is, and expansion fails only for a name that is not known. -/
theorem expand_piecewise (lookup : String → Option Value) :
    (∀ a b : String, (∀ front back, a.toList = front ++ '\x7b' :: back → Text.HoldsClosing back) →
      expand lookup .display (a ++ b) = do
        let shown ← expand lookup .display a
        let rest ← expand lookup .display b
        return shown ++ rest) ∧
    (∀ (mode : Mode) (text : String), (∀ front back, text.toList = front ++ '\x7b' :: back → ¬Text.HoldsClosing back) →
      expand lookup mode text = .ok text) ∧
    ∀ (mode : Mode) (text : String) (e : SheetError), expand lookup mode text = .error e →
      ∃ name, e = .unknownVariable name ∧ lookup name = none := by
  refine ⟨fun a b ha => ?_, fun mode text htext => ?_, fun mode text e h => ?_⟩
  · have hclosed : Closed .display .code a.toList := fun front back heq _ => ha front back heq
    unfold expand
    rw [String.toList_append, expandFrom_append hclosed, afterAll_display]
    cases expandFrom lookup .display .code a.toList with
    | error e => rfl
    | ok shown =>
      cases expandFrom lookup .display .code b.toList with
      | error e => rfl
      | ok rest => exact congrArg Except.ok String.ofList_append
  · have hunmatched : Unmatched mode .code text.toList := fun front back heq _ => htext front back heq
    rw [expand, expandFrom_of_unmatched hunmatched]
    exact congrArg Except.ok String.ofList_toList
  · rw [expand, Parser.map_eq_error] at h
    exact expandFrom_error h

/-- A name that is itself put together by expansion, in front of a brace that nothing closes. -/
theorem expand_piecewise_axe :
    let lookup : String → Option Value := fun name =>
      if name = "kind" then some (.string "axe") else if name = "axe" then some (.string "a sharp axe") else none
    expand lookup .display ("you hold \x7b\x7bkind\x7d\x7d" ++ " \x7bor \x7bkind\x7d") =
      .ok "you hold a sharp axe \x7bor axe" ∧
    expand lookup .display "no \x7bkind" = .ok "no \x7bkind" ∧
    ∃ name, SheetError.unknownVariable "bow" = .unknownVariable name ∧ lookup name = none := by
  intro lookup
  obtain ⟨hpieces, hunmatched, hfails⟩ := expand_piecewise lookup
  refine ⟨?_, hunmatched .display "no \x7bkind" (by decide), hfails .display "\x7bbow\x7d" _ (by cbv)⟩
  rw [hpieces "you hold \x7b\x7bkind\x7d\x7d" " \x7bor \x7bkind\x7d" (by decide)]
  cbv

end LiveSheet.Placeholder
