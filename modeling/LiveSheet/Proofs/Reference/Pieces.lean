import LiveSheet.Proofs.Reference.Placeholders

/-! The pieces of an expanded expression: the characters that the text had already, and the values that came into it. -/

namespace LiveSheet.Placeholder

/-- A character of the text, or the value of a placeholder. -/
inductive Piece where
  | char (c : Char)
  | value (v : Value)

namespace Piece

def chars : Piece → List Char
  | char c => [c]
  | value v => v.sourceChars

def blank : Piece → Piece
  | char c => char c
  | value _ => value .null

end Piece

def written (ps : List Piece) : List Char := ps.flatMap Piece.chars

def blanked (ps : List Piece) : List Char := written (ps.map Piece.blank)

/-- What replaces the braces around some pieces. -/
def replaced (lookup : String → Option Value) (inner : List Piece) : Except SheetError (List Piece) :=
  match reference? (written inner) with
  | none => .ok (.char '\x7b' :: inner ++ [.char '\x7d'])
  | some r => (value lookup r).map fun v => [.value v]

def piecesFrom (lookup : String → Option Value) (quoting : Text.Quoting) (cs : List Char) :
    Except SheetError (List Piece) :=
  match cs with
  | [] => .ok []
  | c :: cs =>
    if c = '\x7b' ∧ quoting = .code then
      match _h : Text.splitBrace 1 cs with
      | some (inner, rest) => do
        let inner' ← piecesFrom lookup .code inner
        let shown ← replaced lookup inner'
        let rest' ← piecesFrom lookup (Mode.source.afterAll (inner ++ ['\x7d']) quoting) rest
        return shown ++ rest'
      | none => (piecesFrom lookup quoting cs).map (.char c :: ·)
    else (piecesFrom lookup (Mode.source.after c quoting) cs).map (.char c :: ·)
termination_by cs.length
decreasing_by
  all_goals simp_wf
  · grind [Text.eq_of_splitBrace _h]
  · grind [Text.eq_of_splitBrace _h]

def pieces (lookup : String → Option Value) (text : String) : Except SheetError (List Piece) :=
  piecesFrom lookup .code text.toList

variable {lookup : String → Option Value} {quoting : Text.Quoting} {cs inner rest : List Char} {c : Char}
  {ps qs : List Piece}

theorem piecesFrom_brace (h : Text.splitBrace 1 cs = some (inner, rest)) :
    piecesFrom lookup .code ('\x7b' :: cs) = (do
      let inner' ← piecesFrom lookup .code inner
      let shown ← replaced lookup inner'
      let rest' ← piecesFrom lookup (Mode.source.afterAll (inner ++ ['\x7d']) .code) rest
      return shown ++ rest') := by
  rw [piecesFrom, if_pos ⟨rfl, rfl⟩]
  split
  · next heq =>
    rw [h] at heq
    cases heq
    rfl
  · next heq =>
    rw [h] at heq
    cases heq

theorem piecesFrom_open (h : Text.splitBrace 1 cs = none) :
    piecesFrom lookup .code ('\x7b' :: cs) = (piecesFrom lookup .code cs).map (.char '\x7b' :: ·) := by
  rw [piecesFrom, if_pos ⟨rfl, rfl⟩]
  split
  · next heq =>
    rw [h] at heq
    cases heq
  · rfl

theorem piecesFrom_plain (h : ¬(c = '\x7b' ∧ quoting = .code)) :
    piecesFrom lookup quoting (c :: cs) = (piecesFrom lookup (Mode.source.after c quoting) cs).map (.char c :: ·) := by
  rw [piecesFrom, if_neg h]

theorem written_append (ps qs : List Piece) : written (ps ++ qs) = written ps ++ written qs := List.flatMap_append

theorem blanked_append (ps qs : List Piece) : blanked (ps ++ qs) = blanked ps ++ blanked qs := by
  rw [blanked, List.map_append, written_append, blanked, blanked]

theorem written_chars (cs : List Char) : written (cs.map Piece.char) = cs := by
  induction cs with
  | nil => rfl
  | cons c cs ih => exact congrArg (c :: ·) ih

theorem blanked_chars (cs : List Char) : blanked (cs.map Piece.char) = cs := by
  have hblank : (cs.map Piece.char).map Piece.blank = cs.map Piece.char := List.map_map.trans rfl
  rw [blanked, hblank, written_chars]

theorem blanked_run (before : List Piece) (run : List Char) :
    blanked (before ++ run.map .char) = blanked before ++ run := by
  rw [blanked_append, blanked_chars]

theorem written_run (before : List Piece) (run : List Char) :
    written (before ++ run.map .char) = written before ++ run := by
  rw [written_append, written_chars]

theorem blanked_value (before : List Piece) (v : Value) :
    blanked (before ++ [.value v]) = blanked before ++ Value.null.sourceChars := by
  rw [blanked_append]
  exact congrArg _ (List.append_nil _)

theorem written_value (before : List Piece) (v : Value) :
    written (before ++ [.value v]) = written before ++ v.sourceChars := by
  rw [written_append]
  exact congrArg _ (List.append_nil _)

theorem replacement_eq (inner : List Piece) :
    replacement lookup .source (written inner) = (replaced lookup inner).map written := by
  unfold replacement replaced
  cases reference? (written inner) with
  | none => exact congrArg Except.ok (by simp [written, Piece.chars])
  | some r =>
    simp only
    cases value lookup r with
    | error e => rfl
    | ok v => exact congrArg Except.ok (by simp [written, Piece.chars, Mode.render, Value.source])

theorem expandFrom_eq : expandFrom lookup .source quoting cs = (piecesFrom lookup quoting cs).map written := by
  have hchar : ∀ (c : Char) (r : Except SheetError (List Piece)),
      (r.map written).map (c :: ·) = (r.map (.char c :: ·)).map written := by
    rintro c (e | ps) <;> rfl
  induction hlength : cs.length using Nat.strongRecOn generalizing cs quoting with
  | _ n ih =>
    subst hlength
    cases cs with
    | nil => simp [expandFrom, piecesFrom, Except.map, written]
    | cons c cs =>
      by_cases hbrace : c = '\x7b' ∧ quoting = .code
      · obtain ⟨rfl, rfl⟩ := hbrace
        cases hsplit : Text.splitBrace 1 cs with
        | none => rw [expandFrom_open hsplit, piecesFrom_open hsplit, ih cs.length (by simp) rfl, hchar]
        | some split =>
          obtain ⟨inner, rest⟩ := split
          have heq := Text.eq_of_splitBrace hsplit
          rw [expandFrom_brace hsplit, piecesFrom_brace hsplit, ih inner.length (by grind) rfl,
            ih rest.length (by grind) rfl]
          cases piecesFrom lookup .code inner with
          | error e => rfl
          | ok inner' =>
            change replacement lookup .source (written inner') >>= _ = _
            rw [replacement_eq]
            change _ = (replaced lookup inner' >>= _).map written
            cases replaced lookup inner' with
            | error e => rfl
            | ok shown =>
              cases piecesFrom lookup (Mode.source.afterAll (inner ++ ['\x7d']) .code) rest with
              | error e => rfl
              | ok rest' => exact congrArg Except.ok (written_append shown rest').symm
      · rw [expandFrom_plain hbrace, piecesFrom_plain hbrace, ih cs.length (by simp) rfl, hchar]

theorem expand_eq (text : String) :
    expand lookup .source text = (pieces lookup text).map fun ps => String.ofList (written ps) := by
  rw [expand, expandFrom_eq, pieces]
  cases piecesFrom lookup .code text.toList <;> rfl

theorem exists_piecesFrom (h : ∀ n ∈ asksFrom lookup .source quoting cs, (lookup n).isSome = true) :
    ∃ ps, piecesFrom lookup quoting cs = .ok ps := by
  induction hlength : cs.length using Nat.strongRecOn generalizing cs quoting with
  | _ n ih =>
    subst hlength
    cases cs with
    | nil => exact ⟨[], by simp [piecesFrom]⟩
    | cons c cs =>
      by_cases hbrace : c = '\x7b' ∧ quoting = .code
      · obtain ⟨rfl, rfl⟩ := hbrace
        cases hsplit : Text.splitBrace 1 cs with
        | none =>
          rw [asksFrom_open hsplit] at h
          obtain ⟨ps, hps⟩ := ih cs.length (by simp) h rfl
          exact ⟨_, by rw [piecesFrom_open hsplit, hps]; rfl⟩
        | some split =>
          obtain ⟨inner, rest⟩ := split
          have heq := Text.eq_of_splitBrace hsplit
          rw [asksFrom_brace hsplit] at h
          obtain ⟨inner', hinner⟩ := ih inner.length (by grind)
            (fun n hn => h n (List.mem_append_left _ (List.mem_append_left _ hn))) rfl
          obtain ⟨rest', hrest⟩ := ih rest.length (by grind) (fun n hn => h n (List.mem_append_right _ hn)) rfl
          obtain ⟨shown, hshown⟩ : ∃ shown, replaced lookup inner' = .ok shown := by
            unfold replaced
            cases href : reference? (written inner') with
            | none => exact ⟨_, rfl⟩
            | some r =>
              have hname : (lookup r.name).isSome = true := by
                refine h r.name (List.mem_append_left _ (List.mem_append_right _ ?_))
                simp [expandFrom_eq, hinner, Except.map, Except.toOption, href]
              obtain ⟨v, hv⟩ := Option.isSome_iff_exists.1 hname
              simp only [value, hv]
              cases r.index <;> exact ⟨_, rfl⟩
          refine ⟨shown ++ rest', ?_⟩
          rw [piecesFrom_brace hsplit, hinner, hrest]
          change replaced lookup inner' >>= _ = _
          rw [hshown]
          rfl
      · rw [asksFrom_plain hbrace] at h
        obtain ⟨ps, hps⟩ := ih cs.length (by simp) h rfl
        exact ⟨_, by rw [piecesFrom_plain hbrace, hps]; rfl⟩

end LiveSheet.Placeholder
