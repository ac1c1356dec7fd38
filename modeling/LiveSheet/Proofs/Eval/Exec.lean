import LiveSheet.Eval

/-! Running an evaluation on a machine, and what every evaluation keeps. A property of machines
that survives a write, a call of an operation, a binding and the sequencing of a text survives any
evaluation, whether it succeeds or fails. -/

namespace LiveSheet.Eval

variable {σ α β : Type}

def exec (x : Eval σ α) (m : Machine σ) : Except SheetError α × Machine σ := StateT.run (ExceptT.run x) m

@[simp] theorem exec_pure (a : α) (m : Machine σ) : exec (pure a) m = (.ok a, m) := rfl

@[simp] theorem exec_fail (fault : EvalFault) (m : Machine σ) :
    exec (fail fault : Eval σ α) m = (.error (.evaluation fault), m) := rfl

@[simp] theorem exec_mk_pure (r : Except SheetError α) (m : Machine σ) :
    exec (ExceptT.mk (pure r) : Eval σ α) m = (r, m) := rfl

theorem exec_bind (x : Eval σ α) (f : α → Eval σ β) (m : Machine σ) :
    exec (x >>= f) m = match exec x m with
      | (.ok a, m) => exec (f a) m
      | (.error e, m) => (.error e, m) := by
  change (match exec x m with
    | (a, m) => exec (ExceptT.mk (ExceptT.bindCont f a)) m) = _
  generalize exec x m = answer
  obtain ⟨a | a, m'⟩ := answer <;> rfl

theorem exec_bind_of_ok {x : Eval σ α} {a : α} {m m' : Machine σ} (h : exec x m = (.ok a, m')) (f : α → Eval σ β) :
    exec (x >>= f) m = exec (f a) m' := by
  rw [exec_bind, h]

theorem exec_bind_congr {x y : Eval σ α} {m m' : Machine σ} (h : exec x m = exec y m') (f : α → Eval σ β) :
    exec (x >>= f) m = exec (y >>= f) m' := by
  rw [exec_bind, exec_bind, h]

theorem exec_bind_eq_ok {x : Eval σ α} {f : α → Eval σ β} {b : β} {m m'' : Machine σ} :
    exec (x >>= f) m = (.ok b, m'') ↔ ∃ a m', exec x m = (.ok a, m') ∧ exec (f a) m' = (.ok b, m'') := by
  rw [exec_bind]
  generalize exec x m = answer
  obtain ⟨_ | a, m'⟩ := answer
  · exact ⟨nofun, fun ⟨_, _, h, _⟩ => nomatch h⟩
  · exact ⟨fun h => ⟨a, m', rfl, h⟩, fun ⟨_, _, rfl, h⟩ => h⟩

@[simp] theorem exec_get_bind (f : Machine σ → Eval σ β) (m : Machine σ) :
    exec (get >>= f) m = exec (f m) m := rfl

/-- An evaluation keeps a property of machines. -/
def Preserves (I : Machine σ → Prop) (x : Eval σ α) : Prop := ∀ m, I m → I (exec x m).2

namespace Preserves

variable {I : Machine σ → Prop}

theorem pure (a : α) : Preserves I (pure a : Eval σ α) := fun _ h => h

theorem fail (fault : EvalFault) : Preserves I (fail fault : Eval σ α) := fun _ h => h

theorem mk_pure (r : Except SheetError α) : Preserves I (ExceptT.mk (Pure.pure r) : Eval σ α) :=
  fun _ h => h

theorem bind {x : Eval σ α} {f : α → Eval σ β} (hx : Preserves I x) (hf : ∀ a, Preserves I (f a)) :
    Preserves I (x >>= f) := by
  intro m hm
  rw [exec_bind]
  have hx := hx m hm
  generalize exec x m = answer at hx
  obtain ⟨e | a, m'⟩ := answer
  · exact hx
  · exact hf a m' hx

theorem map {x : Eval σ α} (f : α → β) (hx : Preserves I x) :
    Preserves I (x >>= fun a => Pure.pure (f a)) :=
  hx.bind fun a => pure (f a)

end Preserves

end LiveSheet.Eval

namespace LiveSheet

/-- The machine after a write: the variable is a literal, its value is stored and reported. -/
def Machine.written {σ : Type} (m : Machine σ) (s : Session) (name : String) (stored : Value)
    (definitions : VariableSet) : Machine σ :=
  { m with
    values := m.values.insert name stored
    session := some { s with definitions := definitions, modified := s.modified.insert name }
    world := (({ m.world with store := m.world.store.keep s.scope name stored }).report
      .modified s.scope name stored).report .resolved s.scope name stored }

namespace Eval

variable {σ : Type}

/-- A property of machines that survives each single change an evaluation makes. -/
structure Stable (I : Machine σ → Prop) : Prop where
  written : ∀ m s name value stored definitions, I m → m.session = some s →
    s.definitions.write? name value = some (stored, definitions) → I (m.written s name stored definitions)
  performed : ∀ m owner name op args, I m → I { m with world := (m.world.perform owner name op args).2 }
  bound : ∀ m name v, I m → I { m with locals := m.locals.insert name v }
  sequenced : ∀ m mode text, I m → I { m with world := (m.world.sequence mode text).2 }

theorem exec_write (s : Session) (name : String) (value : Value) (m : Machine σ) :
    exec (write s name value) m = match s.definitions.write? name value with
      | none => (.error (.unknownVariable name), m)
      | some (stored, definitions) => (.ok stored, m.written s name stored definitions) := by
  unfold write
  cases s.definitions.write? name value <;> rfl

theorem exec_increased_snd (s : Session) (name : String) (delta : Value) (m : Machine σ) :
    (exec (increased s name delta) m).2 = m := by
  unfold increased
  by_cases hc : (!s.definitions.contains name) = true
  · simp only [hc, if_true]
    split <;> rfl
  · simp only [hc, Bool.false_eq_true, if_false]
    split
    · rfl
    · rw [exec_get_bind]
      split <;> rfl

/-- The value of a member, given the owner that its object names. -/
def memberOf (env : Setting σ) (owner : Option String) (name : String) (value : Eval σ Value) : Eval σ Value :=
  match owner with
  | none => value >>= fun v => property v name
  | some owner =>
    if owner = MathLibrary.owner then
      match MathLibrary.constant? name with
      | some v => return v
      | none => fail (.notConstant owner name)
    else if env.integrations.contains owner then fail (.operationAsValue owner name)
    else value >>= fun v => property v name

theorem member_eq (env : Setting σ) {object : Expr} (h : object ≠ .self) (name : String) (value : Eval σ Value) :
    member env object name value = get >>= fun m => memberOf env (owner? env m object) name value := by
  cases object with
  | self => exact absurd rfl h
  | _ => rfl

theorem item_eq (env : Setting σ) {object : Expr} (h : object ≠ .self) (value index : Eval σ Value) :
    item env object value index = item env .null value index := by
  cases object with
  | self => exact absurd rfl h
  | _ => rfl

theorem exec_variableValue {m : Machine σ} {name : String} {v : Value} (h : m.values[name]? = some v)
    (env : Setting σ) : exec (variableValue env name) m = (.ok v, m) := by
  rw [variableValue, exec_get_bind, declared?, h]
  rfl

theorem exec_nameValue_of_value {m : Machine σ} {name : String} {v : Value} (h : m.values[name]? = some v)
    (hlocal : m.locals[name]? = none) (env : Setting σ) : exec (nameValue env name) m = (.ok v, m) := by
  rw [nameValue, exec_get_bind, hlocal, declared?, h]
  rfl

variable {I : Machine σ → Prop}

theorem preserves_get_bind {α : Type} {f : Machine σ → Eval σ α} (h : ∀ m, Preserves I (f m)) :
    Preserves I (get >>= f) := fun m hm => h m m hm

theorem variableValue_preserves (env : Setting σ) (name : String) : Preserves I (variableValue env name) := by
  refine preserves_get_bind fun m => ?_
  split
  · exact .pure _
  · exact .fail _

theorem nameValue_preserves (env : Setting σ) (name : String) : Preserves I (nameValue env name) := by
  refine preserves_get_bind fun m => ?_
  repeat' split
  all_goals first | exact .pure _ | exact .fail _

theorem property_preserves (v : Value) (name : String) : Preserves I (property v name : Eval σ Value) := by
  unfold property
  split
  · exact .pure _
  · exact .pure _
  · exact .fail _

theorem member_preserves (env : Setting σ) (object : Expr) (name : String) {value : Eval σ Value}
    (h : Preserves I value) : Preserves I (member env object name value) := by
  have hvalue : Preserves I (value >>= fun v => property v name) :=
    h.bind fun v => property_preserves v name
  unfold member
  split
  · exact variableValue_preserves env name
  · refine preserves_get_bind fun m => ?_
    split
    · exact hvalue
    · split
      · split
        · exact .pure _
        · exact .fail _
      · split
        · exact .fail _
        · exact hvalue

theorem item_preserves (env : Setting σ) (object : Expr) {value index : Eval σ Value}
    (hv : Preserves I value) (hi : Preserves I index) : Preserves I (item env object value index) := by
  unfold item
  split
  · exact hi.bind fun key => variableValue_preserves env key.display
  · refine hv.bind fun v => hi.bind fun key => ?_
    split
    · exact .pure _
    · split
      · exact .pure _
      · exact .fail _

theorem write_preserves (hI : Stable I) {m : Machine σ} {s : Session} (hm : I m) (hs : m.session = some s)
    (name : String) (value : Value) : I (exec (write s name value) m).2 := by
  rw [exec_write]
  cases hw : s.definitions.write? name value with
  | none => exact hm
  | some written => exact hI.written m s name value _ _ hm hs hw

theorem callWriter_preserves (hI : Stable I) (name : String) (args : List Value) :
    Preserves I (callWriter name args : Eval σ Value) := by
  unfold callWriter
  split
  · intro m hm
    rw [exec_get_bind]
    split
    · exact hm
    · rename_i s hs
      split
      · exact write_preserves hI hm hs _ _
      · have hsame := exec_increased_snd s ‹String› (‹List Value›.head?.getD .null) m
        rw [exec_bind]
        generalize exec (increased s _ _) m = answer at hsame ⊢
        obtain ⟨_ | _, _⟩ := answer
        · exact hsame ▸ hm
        · obtain rfl : _ = m := hsame
          exact write_preserves hI hm hs _ _
  · exact .fail _

theorem callFunction_preserves (hI : Stable I) (env : Setting σ) (awaited : Bool) (name : String)
    {args : Eval σ (List Value)} (h : Preserves I args) : Preserves I (callFunction env awaited name args) := by
  refine preserves_get_bind fun m => ?_
  split
  · split
    · exact h.bind fun values => callWriter_preserves hI name values
    · exact .fail _
  · split
    · exact .fail _
    · split
      · exact h.bind fun values => .mk_pure _
      · exact .fail _

theorem callOperation_preserves (hI : Stable I) (env : Setting σ) (awaited : Bool) (owner name : String)
    {args : Eval σ (List Value)} (h : Preserves I args) :
    Preserves I (callOperation env awaited owner name args) := by
  unfold callOperation
  split
  · split
    · exact h.bind fun values => .mk_pure _
    · exact .fail _
  · split
    · exact .fail _
    · split
      · exact .fail _
      · exact h.bind fun values m hm => hI.performed m _ _ _ _ hm

theorem call_preserves (hI : Stable I) (env : Setting σ) (awaited : Bool) (callee : Expr)
    {args : Eval σ (List Value)} (h : Preserves I args) : Preserves I (call env awaited callee args) := by
  unfold call
  split
  · exact callFunction_preserves hI env awaited _ h
  · refine preserves_get_bind fun m => ?_
    split
    · exact callOperation_preserves hI env awaited _ _ h
    · exact .fail _
  · exact .fail _

mutual

theorem eval_preserves (hI : Stable I) (env : Setting σ) (awaited : Bool) :
    ∀ e : Expr, Preserves I (eval env awaited e)
  | .number n => .pure _
  | .string s => .pure _
  | .boolean b => .pure _
  | .null => .pure _
  | .array items => by
    rw [eval]
    exact (evalAll_preserves hI env items).map _
  | .template parts => by
    rw [eval]
    exact (evalParts_preserves hI env parts).map _
  | .identifier name => nameValue_preserves env name
  | .self => .fail _
  | .member object name => member_preserves env object name (eval_preserves hI env false object)
  | .index object index =>
    item_preserves env object (eval_preserves hI env false object) (eval_preserves hI env false index)
  | .call callee args => call_preserves hI env awaited callee (evalAll_preserves hI env args)
  | .unary op operand => by
    rw [eval]
    exact (eval_preserves hI env false operand).map _
  | .binary op left right => by
    rw [eval]
    refine (eval_preserves hI env false left).bind fun a => ?_
    have hright := eval_preserves hI env false right
    split
    · split
      · exact hright
      · exact .pure _
    · split
      · exact .pure _
      · exact hright
    · exact hright.map _
  | .ternary condition ifTrue ifFalse => by
    rw [eval]
    refine (eval_preserves hI env false condition).bind fun a => ?_
    split
    · exact eval_preserves hI env false ifTrue
    · exact eval_preserves hI env false ifFalse
  | .await operand => eval_preserves hI env true operand

theorem evalAll_preserves (hI : Stable I) (env : Setting σ) :
    ∀ es : List Expr, Preserves I (evalAll env es)
  | [] => .pure _
  | e :: es => by
    rw [evalAll]
    exact (eval_preserves hI env false e).bind fun v => (evalAll_preserves hI env es).map _

theorem evalParts_preserves (hI : Stable I) (env : Setting σ) :
    ∀ ps : List (Part Expr), Preserves I (evalParts env ps)
  | [] => .pure _
  | p :: ps => by
    rw [evalParts]
    exact (evalPart_preserves hI env p).bind fun s => (evalParts_preserves hI env ps).map _

theorem evalPart_preserves (hI : Stable I) (env : Setting σ) :
    ∀ p : Part Expr, Preserves I (evalPart env p)
  | .text s => .pure _
  | .code e => by
    rw [evalPart]
    exact (eval_preserves hI env false e).map _

end

theorem run_preserves (hI : Stable I) (env : Setting σ) (last : Value) (p : Program) :
    Preserves I (run env last p) := by
  induction p generalizing last with
  | nil => exact .pure _
  | cons statement rest ih =>
    cases statement with
    | bind name e =>
      refine (eval_preserves hI env false e).bind fun v => ?_
      exact Preserves.bind (fun m hm => hI.bound m name v hm) fun _ => ih .null
    | expr e => exact (eval_preserves hI env false e).bind fun v => ih v

theorem evaluate_preserves (hI : Stable I) (env : Setting σ) (mode : Await.Mode) (text : String) :
    Preserves I (evaluate env mode text) := by
  refine Preserves.bind (fun m hm => hI.sequenced m mode text hm) fun sequenced => ?_
  refine preserves_get_bind fun m => ?_
  refine Preserves.bind (.mk_pure _) fun source => ?_
  exact Preserves.bind (.mk_pure _) fun program => run_preserves hI env .null program

end Eval

end LiveSheet
