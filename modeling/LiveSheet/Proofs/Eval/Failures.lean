import LiveSheet.Proofs.Eval.Exec

/-! What a run can fail with. A script that is read does not fail to be read while it runs, whatever the host answers:
what an operation fails with counts as a failure of its integration. -/

namespace LiveSheet.Eval

variable {σ α β : Type}

/-- The evaluation does not fail like a text that is not read. -/
def Legible (x : Eval σ α) : Prop := ∀ m p f, (exec x m).1 ≠ .error (.parse p f)

namespace Legible

theorem pure (a : α) : Legible (pure a : Eval σ α) := by
  rintro m p f ⟨⟩

theorem fail (fault : EvalFault) : Legible (fail fault : Eval σ α) := by
  rintro m p f ⟨⟩

theorem mk_pure {r : Except SheetError α} (h : ∀ p f, r ≠ .error (.parse p f)) :
    Legible (ExceptT.mk (Pure.pure r) : Eval σ α) := fun _ => h

theorem bind {x : Eval σ α} {f : α → Eval σ β} (hx : Legible x) (hf : ∀ a, Legible (f a)) : Legible (x >>= f) := by
  intro m p fault
  rw [exec_bind]
  have hx := hx m p fault
  generalize exec x m = answer at hx
  obtain ⟨e | a, m'⟩ := answer
  · exact fun h => hx (congrArg Except.error (Except.error.inj h))
  · exact hf a m' p fault

theorem map {x : Eval σ α} (f : α → β) (hx : Legible x) : Legible (x >>= fun a => Pure.pure (f a)) :=
  hx.bind fun a => pure (f a)

end Legible

theorem legible_get_bind {f : Machine σ → Eval σ α} (h : ∀ m, Legible (f m)) : Legible (get >>= f) := fun m => h m m

theorem variableValue_legible (env : Setting σ) (name : String) : Legible (variableValue env name) := by
  refine legible_get_bind fun m => ?_
  split
  · exact .pure _
  · exact .fail _

theorem nameValue_legible (env : Setting σ) (name : String) : Legible (nameValue env name) := by
  refine legible_get_bind fun m => ?_
  repeat' split
  all_goals first | exact .pure _ | exact .fail _

theorem property_legible (v : Value) (name : String) : Legible (property v name : Eval σ Value) := by
  unfold property
  split
  · exact .pure _
  · exact .pure _
  · exact .fail _

theorem member_legible (env : Setting σ) (object : Expr) (name : String) {value : Eval σ Value} (h : Legible value) :
    Legible (member env object name value) := by
  have hvalue : Legible (value >>= fun v => property v name) := h.bind fun v => property_legible v name
  unfold member
  split
  · exact variableValue_legible env name
  · refine legible_get_bind fun m => ?_
    split
    · exact hvalue
    · split
      · split
        · exact .pure _
        · exact .fail _
      · split
        · exact .fail _
        · exact hvalue

theorem item_legible (env : Setting σ) (object : Expr) {value index : Eval σ Value} (hv : Legible value)
    (hi : Legible index) : Legible (item env object value index) := by
  unfold item
  split
  · exact hi.bind fun key => variableValue_legible env key.display
  · refine hv.bind fun v => hi.bind fun key => ?_
    split
    · exact .pure _
    · split
      · exact .pure _
      · exact .fail _

theorem write_legible (s : Session) (name : String) (value : Value) : Legible (write s name value : Eval σ Value) := by
  intro m p f
  rw [exec_write]
  split <;> rintro ⟨⟩

theorem increased_legible (s : Session) (name : String) (delta : Value) :
    Legible (increased s name delta : Eval σ Value) := by
  intro m p f
  unfold increased
  by_cases hc : (!s.definitions.contains name) = true
  · simp only [hc, if_true]
    split <;> rintro ⟨⟩
  · simp only [hc, Bool.false_eq_true, if_false]
    split
    · rintro ⟨⟩
    · rw [exec_get_bind]
      split <;> rintro ⟨⟩

theorem callWriter_legible (name : String) (args : List Value) : Legible (callWriter name args : Eval σ Value) := by
  unfold callWriter
  split
  · refine legible_get_bind fun m => ?_
    split
    · exact .fail _
    · split
      · exact write_legible _ _ _
      · exact (increased_legible _ _ _).bind fun v => write_legible _ _ _
  · exact .fail _

theorem mathCall_ne_parse (name : String) (args : List Value) (p : Position) (f : SyntaxFault) :
    MathLibrary.call name args ≠ .error (.parse p f) := by
  unfold MathLibrary.call
  split <;> rintro ⟨⟩

theorem perform_ne_parse (world : World σ) (owner name : String) (op : Operation σ) (args : List Value) (p : Position)
    (f : SyntaxFault) : (world.perform owner name op args).1 ≠ .error (.parse p f) := by
  unfold World.perform
  rcases op.run args world.host with ⟨e | v, host⟩
  · cases e <;> rintro ⟨⟩
  · rintro ⟨⟩

theorem callFunction_legible (env : Setting σ) (awaited : Bool) (name : String) {args : Eval σ (List Value)}
    (h : Legible args) : Legible (callFunction env awaited name args) := by
  refine legible_get_bind fun m => ?_
  split
  · split
    · exact h.bind fun values => callWriter_legible name values
    · exact .fail _
  · split
    · exact .fail _
    · split
      · exact h.bind fun values => .mk_pure (mathCall_ne_parse name values)
      · exact .fail _

theorem callOperation_legible (env : Setting σ) (awaited : Bool) (owner name : String) {args : Eval σ (List Value)}
    (h : Legible args) : Legible (callOperation env awaited owner name args) := by
  unfold callOperation
  split
  · split
    · exact h.bind fun values => .mk_pure (mathCall_ne_parse name values)
    · exact .fail _
  · split
    · exact .fail _
    · split
      · exact .fail _
      · exact h.bind fun values m => perform_ne_parse m.world owner name _ values

theorem call_legible (env : Setting σ) (awaited : Bool) (callee : Expr) {args : Eval σ (List Value)}
    (h : Legible args) : Legible (call env awaited callee args) := by
  unfold call
  split
  · exact callFunction_legible env awaited _ h
  · refine legible_get_bind fun m => ?_
    split
    · exact callOperation_legible env awaited _ _ h
    · exact .fail _
  · exact .fail _

mutual

theorem eval_legible (env : Setting σ) (awaited : Bool) : ∀ e : Expr, Legible (eval env awaited e)
  | .number n => .pure _
  | .string s => .pure _
  | .boolean b => .pure _
  | .null => .pure _
  | .array items => by
    rw [eval]
    exact (evalAll_legible env items).map _
  | .template parts => by
    rw [eval]
    exact (evalParts_legible env parts).map _
  | .identifier name => nameValue_legible env name
  | .self => .fail _
  | .member object name => member_legible env object name (eval_legible env false object)
  | .index object index => item_legible env object (eval_legible env false object) (eval_legible env false index)
  | .call callee args => call_legible env awaited callee (evalAll_legible env args)
  | .unary op operand => by
    rw [eval]
    exact (eval_legible env false operand).map _
  | .binary op left right => by
    rw [eval]
    refine (eval_legible env false left).bind fun a => ?_
    have hright := eval_legible env false right
    split
    · split
      · exact hright
      · exact .pure _
    · split
      · exact .pure _
      · exact hright
    · exact hright.map _
  | .ternary condition ifTrue ifFalse => by
    rw [eval]
    refine (eval_legible env false condition).bind fun a => ?_
    split
    · exact eval_legible env false ifTrue
    · exact eval_legible env false ifFalse
  | .await operand => eval_legible env true operand

theorem evalAll_legible (env : Setting σ) : ∀ es : List Expr, Legible (evalAll env es)
  | [] => .pure _
  | e :: es => by
    rw [evalAll]
    exact (eval_legible env false e).bind fun v => (evalAll_legible env es).map _

theorem evalParts_legible (env : Setting σ) : ∀ ps : List (Part Expr), Legible (evalParts env ps)
  | [] => .pure _
  | p :: ps => by
    rw [evalParts]
    exact (evalPart_legible env p).bind fun s => (evalParts_legible env ps).map _

theorem evalPart_legible (env : Setting σ) : ∀ p : Part Expr, Legible (evalPart env p)
  | .text s => .pure _
  | .code e => by
    rw [evalPart]
    exact (eval_legible env false e).map _

end

theorem run_legible (env : Setting σ) (last : Value) (program : Program) : Legible (run env last program) := by
  induction program generalizing last with
  | nil => exact .pure _
  | cons statement rest ih =>
    cases statement with
    | bind name e =>
      refine (eval_legible env false e).bind fun v => ?_
      exact Legible.bind (fun m p f h => nomatch h) fun _ => ih .null
    | expr e => exact (eval_legible env false e).bind fun v => ih v

end LiveSheet.Eval
