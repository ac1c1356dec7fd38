import LiveSheet.Proofs.Command.Agreement
import LiveSheet.Proofs.Expr.Erased

/-! The expressions that a run comes to, each with the writes that were asked for before it and with what the run does
with its value. The variables hold these writes when the expression is evaluated, so a variable that was written to is
read as it was written last. -/

namespace LiveSheet

theorem lastWritten?_append {ws' : List Write} {x : String} (h : ∀ w ∈ ws', w.name ≠ x) (ws : List Write) :
    lastWritten? (ws ++ ws') x = lastWritten? ws x := by
  have hnone : ws'.filter (fun w => w.name = x) = [] := List.filter_eq_nil_iff.2 fun w hw => by simpa using h w hw
  rw [lastWritten?, List.filter_append, hnone, List.append_nil, lastWritten?]

theorem Copies.foldl_write {c : Copies} {x : String} {d : Variable} (hd : c.definitions.get? x = some d)
    (ws : List Write) : (∃ d', (ws.foldl write c).definitions.get? x = some d' ∧ d'.clamp = d.clamp) ∧
      ∀ v, lastWritten? ws x = some v → (ws.foldl write c).values[x]? = some (d.clamp v) := by
  induction ws using List.reverseRecOn with
  | nil => exact ⟨⟨d, hd, rfl⟩, nofun⟩
  | append_singleton ws w ih =>
    obtain ⟨⟨d', hd', hclamp⟩, hvalues⟩ := ih
    rw [List.foldl_append, List.foldl_cons, List.foldl_nil, lastWritten?_concat]
    generalize ws.foldl write c = c' at hd' hvalues ⊢
    unfold write
    by_cases hname : w.name = x
    · subst hname
      have hwrite : c'.definitions.write? w.name w.value =
          some (d'.clamp w.value, c'.definitions.freeze w.name (d'.clamp w.value)) := by
        rw [VariableSet.write?, hd', Option.map_some]
      simp only [hwrite, if_true, Option.some.injEq]
      refine ⟨⟨d'.freeze (d'.clamp w.value), ?_, ?_⟩, ?_⟩
      · rw [VariableSet.get?_freeze, hd', Option.map_some, if_pos rfl]
      · rw [← hclamp]
        exact funext fun v => d'.clamp_freeze _ v
      · rintro v rfl
        rw [NameMap.get?_insert, if_pos rfl, hclamp]
    · simp only [if_neg hname]
      cases hwrite : c'.definitions.write? w.name w.value with
      | none => exact ⟨⟨d', hd', hclamp⟩, hvalues⟩
      | some written =>
        obtain ⟨d'', hd'', rfl⟩ := Option.map_eq_some_iff.1 hwrite
        refine ⟨⟨d', ?_, hclamp⟩, fun v hv => ?_⟩
        · rw [VariableSet.get?_freeze, hd', Option.map_some, if_neg (Ne.symm hname)]
        · rw [NameMap.get?_insert, if_neg hname]
          exact hvalues v hv

end LiveSheet

namespace LiveSheet.Eval

variable {σ : Type} {env : Setting σ} {m m₁ m₂ : Machine σ} {awaited awaited' : Bool} {e e' : Expr} {ws : List Write}
  {x : String} {k : Value → Eval σ Value}

/-! ## Parts of an expression -/

def found (v key : Value) : Eval σ Value :=
  match Number.index? key.toNumber with
  | none => return .null
  | some position =>
    match v.item? position with
    | some w => return w
    | none => fail (.notIndexable v.kind)

def takesArguments (env : Setting σ) (awaited : Bool) (m : Machine σ) : Expr → Bool
  | .identifier name =>
    if m.session.isSome && Await.writers.contains name then awaited
    else !isShadowed env m name && MathLibrary.hasFunction name
  | .member object name => (owner? env m object).any fun owner => needsArguments env awaited owner name
  | _ => false

/-- What a call of an operation, or of a function of the library, does with the values of its arguments. -/
def performed (env : Setting σ) (owner name : String) (args : List Value) : Eval σ Value :=
  match (env.integrations.get? owner).bind fun i => i.operations[name]? with
  | none => ExceptT.mk (pure (MathLibrary.call name args))
  | some op => ExceptT.mk (modifyGet fun m =>
      let (result, world) := m.world.perform owner name op args
      (result, { m with world }))

def applied (env : Setting σ) (m : Machine σ) : Expr → List Value → Eval σ Value
  | .identifier name =>
    if m.session.isSome && Await.writers.contains name then callWriter name
    else fun args => ExceptT.mk (pure (MathLibrary.call name args))
  | .member object name =>
    match owner? env m object with
    | none => fun _ => fail (.notFunction name)
    | some owner => performed env owner name
  | _ => fun _ => fail .notCallable

/-- What an operator does with the value of its left side. -/
def joined (env : Setting σ) (op : BinaryOp) (right : Expr) (a : Value) : Eval σ Value :=
  match op with
  | .and => if a.isTruthy then eval env false right else return a
  | .or => if a.isTruthy then return a else eval env false right
  | op => do return a.binary op (← eval env false right)

/-- What an operator does with the value of its right side, where that is evaluated. -/
def joinedWith (op : BinaryOp) (a b : Value) : Eval σ Value :=
  match op with
  | .and | .or => return b
  | op => return a.binary op b

/-- Whether the right side of an operator is evaluated, given the value of the left one. -/
def goesOn : BinaryOp → Value → Bool
  | .and, v => v.isTruthy
  | .or, v => !v.isTruthy
  | _, _ => true

/-- To evaluate an expression on a machine, a part of it is evaluated, after some writes and on the machine that these
leave; then it goes on with the value of the part. -/
inductive Enters (env : Setting σ) : Bool → Expr → Machine σ → List Write → Bool → Expr → Machine σ →
    (Value → Eval σ Value) → Prop
  | item {awaited : Bool} {m m₁ : Machine σ} {before after : List Expr} {e : Expr} {vs : List Value} :
      exec (evalAll env before) m = (.ok vs, m₁) →
      Enters env awaited (.array (before ++ e :: after)) m (writesAll env m before) false e m₁ fun v => do
        return .array (vs ++ v :: (← evalAll env after))
  | code {awaited : Bool} {m m₁ : Machine σ} {before after : List (Part Expr)} {e : Expr} {s : String} :
      exec (evalParts env before) m = (.ok s, m₁) →
      Enters env awaited (.template (before ++ .code e :: after)) m (writesParts env m before) false e m₁ fun v => do
        return .string (s ++ (v.display ++ (← evalParts env after)))
  | owner {awaited : Bool} {m : Machine σ} {object : Expr} {name : String} : needsObject env m object = true →
      Enters env awaited (.member object name) m [] false object m fun v => property v name
  | indexed {awaited : Bool} {m : Machine σ} {object index : Expr} : object ≠ .self →
      Enters env awaited (.index object index) m [] false object m fun v => do found v (← eval env false index)
  | index {awaited : Bool} {m m₁ : Machine σ} {object index : Expr} {v : Value} : object ≠ .self →
      exec (eval env false object) m = (.ok v, m₁) →
      Enters env awaited (.index object index) m (writes env false m object) false index m₁ (found v)
  | key {awaited : Bool} {m : Machine σ} {index : Expr} :
      Enters env awaited (.index .self index) m [] false index m fun v => variableValue env v.display
  | argument {awaited : Bool} {m m₁ : Machine σ} {callee e : Expr} {before after : List Expr} {vs : List Value} :
      takesArguments env awaited m callee = true → exec (evalAll env before) m = (.ok vs, m₁) →
      Enters env awaited (.call callee (before ++ e :: after)) m (writesAll env m before) false e m₁ fun v => do
        applied env m callee (vs ++ v :: (← evalAll env after))
  | operand {awaited : Bool} {m : Machine σ} {op : UnaryOp} {operand : Expr} :
      Enters env awaited (.unary op operand) m [] false operand m fun v => return v.unary op
  | left {awaited : Bool} {m : Machine σ} {op : BinaryOp} {left right : Expr} :
      Enters env awaited (.binary op left right) m [] false left m (joined env op right)
  | right {awaited : Bool} {m m₁ : Machine σ} {op : BinaryOp} {left right : Expr} {v : Value} :
      exec (eval env false left) m = (.ok v, m₁) → goesOn op v = true →
      Enters env awaited (.binary op left right) m (writes env false m left) false right m₁ (joinedWith op v)
  | condition {awaited : Bool} {m : Machine σ} {condition ifTrue ifFalse : Expr} :
      Enters env awaited (.ternary condition ifTrue ifFalse) m [] false condition m fun v =>
        if v.isTruthy then eval env false ifTrue else eval env false ifFalse
  | branch {awaited : Bool} {m m₁ : Machine σ} {condition ifTrue ifFalse : Expr} {v : Value} :
      exec (eval env false condition) m = (.ok v, m₁) →
      Enters env awaited (.ternary condition ifTrue ifFalse) m (writes env false m condition) false
        (if v.isTruthy then ifTrue else ifFalse) m₁ pure
  | awaits {awaited : Bool} {m : Machine σ} {operand : Expr} :
      Enters env awaited (.await operand) m [] true operand m pure

/-- The evaluation of an expression comes to another one, which may lie deep in it. -/
inductive Visits (env : Setting σ) : Bool → Expr → Machine σ → List Write → Bool → Expr → Machine σ →
    (Value → Eval σ Value) → Prop
  | here (awaited : Bool) (e : Expr) (m : Machine σ) : Visits env awaited e m [] awaited e m pure
  | inside {awaited awaited' awaited'' : Bool} {e e' e'' : Expr} {m m₁ m₂ : Machine σ} {ws ws' : List Write}
      {k k' : Value → Eval σ Value} : Enters env awaited e m ws awaited' e' m₁ k →
      Visits env awaited' e' m₁ ws' awaited'' e'' m₂ k' →
      Visits env awaited e m (ws ++ ws') awaited'' e'' m₂ fun v => k' v >>= k

def follows (env : Setting σ) (s : Statement) (after : Program) (v : Value) : Eval σ Value :=
  match s with
  | .bind name _ => do
    modify fun m => { m with locals := m.locals.insert name v }
    run env .null after
  | .expr _ => run env v after

/-- The run of a script comes to an expression in one of its statements. -/
inductive RunVisits (env : Setting σ) : Program → Machine σ → List Write → Bool → Expr → Machine σ →
    (Value → Eval σ Value) → Prop
  | statement {before after : Program} {s : Statement} {m m₁ m₂ : Machine σ} {last : Value} {ws : List Write}
      {awaited : Bool} {e : Expr} {k : Value → Eval σ Value} : exec (run env .null before) m = (.ok last, m₁) →
      Visits env false s.value m₁ ws awaited e m₂ k →
      RunVisits env (before ++ s :: after) m (writesRun env m before ++ ws) awaited e m₂ fun v =>
        k v >>= follows env s after

/-- The expression stands for a variable. A key of `this` may be any expression, and is evaluated first. -/
inductive Names (env : Setting σ) (m : Machine σ) : Expr → String → List Write → Machine σ → Prop
  | bare {name : String} : m.locals[name]? = none → Names env m (.identifier name) name [] m
  | member {name : String} : Names env m (.member .self name) name [] m
  | key {index : Expr} {v : Value} {m₁ : Machine σ} : exec (eval env false index) m = (.ok v, m₁) →
      Names env m (.index .self index) v.display (writes env false m index) m₁

/-! ## The evaluation goes on from there -/

theorem exec_evalAll_append {before : List Expr} {vs : List Value} (h : exec (evalAll env before) m = (.ok vs, m₁))
    (e : Expr) (after : List Expr) : exec (evalAll env (before ++ e :: after)) m =
      exec (eval env false e >>= fun v => do return vs ++ v :: (← evalAll env after)) m₁ := by
  induction before generalizing m vs with
  | nil =>
    cases h
    rfl
  | cons first before ih =>
    rw [evalAll] at h
    obtain ⟨v, m', hfirst, h⟩ := exec_bind_eq_ok.1 h
    obtain ⟨vs', m'', hbefore, h⟩ := exec_bind_eq_ok.1 h
    cases h
    rw [List.cons_append, evalAll, exec_bind_of_ok hfirst, exec_bind_congr (ih hbefore)]
    simp only [bind_assoc, pure_bind, List.cons_append]

theorem exec_evalParts_append {before : List (Part Expr)} {s : String}
    (h : exec (evalParts env before) m = (.ok s, m₁)) (e : Expr) (after : List (Part Expr)) :
    exec (evalParts env (before ++ .code e :: after)) m =
      exec (eval env false e >>= fun v => do return s ++ (v.display ++ (← evalParts env after))) m₁ := by
  induction before generalizing m s with
  | nil =>
    cases h
    rw [List.nil_append, evalParts, evalPart]
    simp only [bind_assoc, pure_bind, String.empty_append]
  | cons first before ih =>
    rw [evalParts] at h
    obtain ⟨s', m', hfirst, h⟩ := exec_bind_eq_ok.1 h
    obtain ⟨s'', m'', hbefore, h⟩ := exec_bind_eq_ok.1 h
    cases h
    rw [List.cons_append, evalParts, exec_bind_of_ok hfirst, exec_bind_congr (ih hbefore)]
    simp only [bind_assoc, pure_bind, String.append_assoc]

theorem exec_member {object : Expr} (h : needsObject env m object = true) (name : String) (value : Eval σ Value) :
    exec (member env object name value) m = exec (value >>= fun v => property v name) m := by
  have hself : object ≠ .self := by
    rintro rfl
    cases h
  rw [needsObject_eq env m hself] at h
  rw [member_eq env hself, exec_get_bind]
  cases howner : owner? env m object with
  | none => rfl
  | some owner =>
    rw [howner, Option.all_some, Bool.and_eq_true, bne_iff_ne, Bool.not_eq_true'] at h
    simp only [memberOf, if_neg h.1, h.2, Bool.false_eq_true, if_false]

theorem callOperation_eq {owner name : String} (h : needsArguments env awaited owner name = true)
    (args : Eval σ (List Value)) : callOperation env awaited owner name args = args >>= performed env owner name := by
  unfold needsArguments at h
  unfold callOperation performed
  cases hget : env.integrations.get? owner with
  | none =>
    rw [hget] at h
    exact if_pos (beq_iff_eq.1 h)
  | some integration =>
    rw [hget] at h
    dsimp only [Option.bind_some] at h ⊢
    cases hop : integration.operations[name]? with
    | none =>
      rw [hop] at h
      cases h
    | some op =>
      rw [hop, Bool.not_eq_true'] at h
      exact if_neg (by rw [h]; exact Bool.false_ne_true)

theorem exec_call {callee : Expr} (h : takesArguments env awaited m callee = true) (args : Eval σ (List Value)) :
    exec (call env awaited callee args) m = exec (args >>= applied env m callee) m := by
  cases callee with
  | identifier name =>
    rw [takesArguments] at h
    rw [call, callFunction, exec_get_bind, applied]
    split
    · next hwriter =>
      rw [if_pos hwriter] at h
      rw [if_pos h]
    · next hwriter =>
      rw [if_neg hwriter, Bool.and_eq_true, Bool.not_eq_true'] at h
      rw [h.1, if_neg Bool.false_ne_true, if_pos h.2]
  | member object name =>
    rw [takesArguments, Option.any_eq_true] at h
    obtain ⟨owner, howner, h⟩ := h
    rw [call, exec_get_bind, applied, howner]
    exact congrArg (exec · m) (callOperation_eq h args)
  | _ => cases h

theorem joined_eq {op : BinaryOp} {v : Value} (h : goesOn op v = true) (right : Expr) :
    joined env op right v = eval env false right >>= joinedWith op v := by
  cases op with
  | and =>
    have htrue : v.isTruthy = true := h
    rw [joined, if_pos htrue]
    exact (bind_pure _).symm
  | or =>
    have hfalse : v.isTruthy = false := by simpa [goesOn] using h
    rw [joined, hfalse, if_neg Bool.false_ne_true]
    exact (bind_pure _).symm
  | _ => rfl

theorem eval_binary (op : BinaryOp) (left right : Expr) :
    eval env awaited (.binary op left right) = eval env false left >>= joined env op right := by
  rw [eval]
  cases op <;> rfl

theorem Enters.exec_eq (h : Enters env awaited e m ws awaited' e' m₁ k) :
    exec (eval env awaited e) m = exec (eval env awaited' e' >>= k) m₁ := by
  cases h with
  | item h =>
    rw [eval, exec_bind_congr (exec_evalAll_append h _ _)]
    simp only [bind_assoc, pure_bind]
  | code h =>
    rw [eval, exec_bind_congr (exec_evalParts_append h _ _)]
    simp only [bind_assoc, pure_bind]
  | owner h => exact exec_member h _ _
  | indexed h =>
    rw [eval, item_eq env h]
    rfl
  | index h hobject =>
    rw [eval, item_eq env h]
    exact exec_bind_of_ok hobject _
  | key => rfl
  | argument h hbefore =>
    rw [eval, exec_call h, exec_bind_congr (exec_evalAll_append hbefore _ _)]
    simp only [bind_assoc, pure_bind]
  | operand => rfl
  | left => rw [eval_binary]
  | right hleft h => rw [eval_binary, exec_bind_of_ok hleft, joined_eq h]
  | condition => rfl
  | @branch m _ condition ifTrue ifFalse v h =>
    rw [eval, exec_bind_of_ok h, bind_pure]
    split <;> rfl
  | awaits => rw [eval, bind_pure]

theorem Visits.exec_eq (h : Visits env awaited e m ws awaited' e' m₁ k) :
    exec (eval env awaited e) m = exec (eval env awaited' e' >>= k) m₁ := by
  induction h with
  | here => rw [bind_pure]
  | inside h _ ih => rw [h.exec_eq, exec_bind_congr ih, bind_assoc]

theorem run_cons (last : Value) (s : Statement) (after : Program) :
    run env last (s :: after) = eval env false s.value >>= follows env s after := by
  cases s <;> rfl

theorem exec_run_append (env : Setting σ) (last : Value) (before after : Program) (m : Machine σ) :
    exec (run env last (before ++ after)) m = exec (run env last before >>= fun v => run env v after) m := by
  induction before generalizing last m with
  | nil => rfl
  | cons s before ih =>
    rw [List.cons_append, run_cons, run_cons, bind_assoc, exec_bind, exec_bind]
    generalize exec (eval env false s.value) m = answer
    obtain ⟨_ | v, m'⟩ := answer
    · rfl
    · cases s with
      | bind name e => exact ih .null { m' with locals := m'.locals.insert name v }
      | expr e => exact ih v m'

theorem RunVisits.exec_eq {p : Program} (h : RunVisits env p m ws awaited e m₁ k) (last : Value) :
    exec (run env last p) m = exec (eval env awaited e >>= k) m₁ := by
  obtain @⟨before, after, s, m, m', m₁, v, ws, awaited, e, k, hbefore, hvisits⟩ := h
  have hlast : exec (run env last (before ++ s :: after)) m = exec (run env .null (before ++ s :: after)) m := by
    cases before with
    | nil => rw [List.nil_append, run_cons, run_cons]
    | cons first before => rw [List.cons_append, run_cons, run_cons]
  rw [hlast, exec_run_append, exec_bind_of_ok hbefore, run_cons, exec_bind_congr hvisits.exec_eq, bind_assoc]

/-! ## What the variables hold there -/

/-- The second machine is the first one after some writes. -/
def After (m : Machine σ) (ws : List Write) (m₁ : Machine σ) : Prop :=
  m₁.copies? = m.copies?.map fun c => ws.foldl Copies.write c

theorem After.refl (m : Machine σ) : After m [] m := (Performs.pure () m)

theorem After.trans {ws ws' : List Write} (h : After m ws m₁) (h' : After m₁ ws' m₂) : After m (ws ++ ws') m₂ := by
  rw [After, h', h, Option.map_map]
  simp [Function.comp_def]

theorem Performs.after {α : Type} {x : Eval σ α} {a : α} (h : Performs x m ws) (hx : exec x m = (.ok a, m₁)) :
    After m ws m₁ := by
  rwa [Performs, hx] at h

theorem Enters.after (h : Enters env awaited e m ws awaited' e' m₁ k) : After m ws m₁ := by
  cases h with
  | item h => exact (evalAll_performs env m _).after h
  | code h => exact (evalParts_performs env m _).after h
  | owner | indexed | key | operand | left | condition | awaits => exact .refl m
  | index _ h => exact (eval_performs env false m _).after h
  | argument _ h => exact (evalAll_performs env m _).after h
  | right h _ => exact (eval_performs env false m _).after h
  | branch h => exact (eval_performs env false m _).after h

theorem Visits.after (h : Visits env awaited e m ws awaited' e' m₁ k) : After m ws m₁ := by
  induction h with
  | here _ _ m => exact .refl m
  | inside h _ ih => exact h.after.trans ih

theorem RunVisits.after {p : Program} (h : RunVisits env p m ws awaited e m₁ k) : After m ws m₁ := by
  obtain ⟨hbefore, hvisits⟩ := h
  exact ((run_performs env .null _ m).after hbefore).trans hvisits.after

theorem After.values_eq {c : Copies} (h : After m ws m₁) (hm : m.copies? = some c) :
    m₁.values = (ws.foldl Copies.write c).values := by
  rw [After, hm, Option.map_some] at h
  obtain ⟨s, _, heq⟩ := Option.map_eq_some_iff.1 h
  exact congrArg Copies.values heq

theorem Names.after (h : Names env m e x ws m₁) : After m ws m₁ := by
  cases h with
  | bare | member => exact .refl m
  | key h => exact (eval_performs env false m _).after h

theorem Names.exec_eval {v : Value} (h : Names env m e x ws m₁) (hvalue : m₁.values[x]? = some v) (awaited : Bool) :
    exec (eval env awaited e) m = (.ok v, m₁) := by
  cases h with
  | bare hlocal => rw [eval, exec_nameValue_of_value hvalue hlocal]
  | member => rw [eval, Eval.member, exec_variableValue hvalue]
  | key hkey => rw [eval, item, exec_bind_of_ok hkey, exec_variableValue hvalue]

end LiveSheet.Eval
