import LiveSheet.Command
import LiveSheet.Proofs.Eval.Exec
import LiveSheet.Resolution

/-! Evaluation where no integration is registered and nothing can be written. The answer depends on
the declared names, the values and the locals alone, and the machine is left as it was, so an
expression has the same value in every world without integrations. -/

namespace LiveSheet

namespace IntegrationSet
variable {σ : Type}

theorem eq_mk_empty {set : IntegrationSet σ} (h : set.byName = ∅) : set = ⟨∅, set.version⟩ := by
  rw [← h]

@[simp] theorem contains_mk_empty (version : Nat) (name : String) :
    contains (⟨∅, version⟩ : IntegrationSet σ) name = false := by simp [contains]

@[simp] theorem get?_mk_empty (version : Nat) (name : String) :
    get? (⟨∅, version⟩ : IntegrationSet σ) name = none := by simp [get?]

@[simp] theorem deferredCalls_mk_empty (version : Nat) :
    deferredCalls (⟨∅, version⟩ : IntegrationSet σ) = [] := by
  have h : (∅ : NameMap (Integration σ)).toList = [] := rfl
  simp [deferredCalls, h]

end IntegrationSet

namespace Await

theorem sequenceFrom_nil (spans : List Text.Span) (i : Nat) (before cs : List Char) :
    sequenceFrom [] spans i before cs = cs := by
  have hnone : ∀ before cs call, firstMatch [] before cs ≠ some call := by simp [firstMatch]
  fun_induction sequenceFrom [] spans i before cs with
  | case1 => rfl
  | case2 _ _ _ _ _ _ ih => rw [ih]
  | case3 => exact absurd ‹_› (hnone _ _ _)
  | case4 => exact absurd ‹_› (hnone _ _ _)
  | case5 => exact absurd ‹_› (hnone _ _ _)

theorem sequenceCalls_nil (cs : List Char) : sequenceCalls [] cs = cs := by
  simp only [sequenceCalls, callPatterns, List.map_nil, List.mergeSort_nil, sequenceFrom_nil]

end Await

namespace Eval

variable {σ α β : Type} {declared : NameSet} {values locals : NameMap Value}

/-- What a declared name stands for, null while it has no value. -/
def known (declared : NameSet) (values : NameMap Value) (name : String) : Option Value :=
  match values[name]? with
  | some v => some v
  | none => if declared.contains name then some .null else none

theorem declared?_eq_known (env : Setting σ) (m : Machine σ) (name : String) :
    declared? env m name = known env.declared m.values name := rfl

/-- The name of an owner that is neither a local nor a variable. -/
def unshadowed (declared : NameSet) (values locals : NameMap Value) : Expr → Option String
  | .identifier name =>
    if locals.contains name || (known declared values name).isSome then none else some name
  | _ => none

theorem owner?_eq_unshadowed (env : Setting σ) (m : Machine σ) (e : Expr) :
    owner? env m e = unshadowed env.declared m.values m.locals e := by
  cases e <;> rfl

/-- Without integrations and without a session the answer is the same in every world, and the
machine stays as it is. -/
def Isolated (declared : NameSet) (values locals : NameMap Value) (x : Setting σ → Eval σ α) : Prop :=
  ∃ r, ∀ version world, exec (x ⟨⟨∅, version⟩, declared⟩) ⟨world, values, locals, none⟩ =
    (r, ⟨world, values, locals, none⟩)

namespace Isolated

theorem pure (a : α) : Isolated declared values locals (fun _ : Setting σ => pure a) :=
  ⟨.ok a, fun _ _ => rfl⟩

theorem fail (fault : EvalFault) : Isolated declared values locals (fun _ : Setting σ => (fail fault : Eval σ α)) :=
  ⟨.error (.evaluation fault), fun _ _ => rfl⟩

theorem mk_pure (r : Except SheetError α) :
    Isolated declared values locals (fun _ : Setting σ => ExceptT.mk (Pure.pure r)) :=
  ⟨r, fun _ _ => rfl⟩

theorem bind {x : Setting σ → Eval σ α} {f : Setting σ → α → Eval σ β}
    (hx : Isolated declared values locals x)
    (hf : ∀ a, Isolated declared values locals fun env => f env a) :
    Isolated declared values locals fun env => x env >>= f env := by
  obtain ⟨r, hr⟩ := hx
  cases r with
  | error e => exact ⟨.error e, fun version world => by rw [exec_bind, hr]⟩
  | ok a =>
    obtain ⟨r, hr'⟩ := hf a
    exact ⟨r, fun version world => by rw [exec_bind, hr]; exact hr' version world⟩

theorem map {x : Setting σ → Eval σ α} (f : α → β) (hx : Isolated declared values locals x) :
    Isolated declared values locals fun env => x env >>= fun a => Pure.pure (f a) :=
  hx.bind fun a => pure (f a)

theorem get_bind {f : Setting σ → Machine σ → Eval σ α} {g : Setting σ → Eval σ α}
    (hg : Isolated declared values locals g)
    (hf : ∀ version world, f ⟨⟨∅, version⟩, declared⟩ ⟨world, values, locals, none⟩ =
      g ⟨⟨∅, version⟩, declared⟩) :
    Isolated declared values locals fun env => get >>= f env := by
  obtain ⟨r, hr⟩ := hg
  exact ⟨r, fun version world => by rw [exec_get_bind, hf]; exact hr version world⟩

end Isolated

theorem variableValue_isolated (name : String) :
    Isolated declared values locals fun env : Setting σ => variableValue env name := by
  cases h : known declared values name with
  | some v => exact (Isolated.pure v).get_bind fun _ _ => by simp only [declared?_eq_known, h]
  | none =>
    exact (Isolated.fail (.undeclared name)).get_bind fun _ _ => by simp only [declared?_eq_known, h]

theorem nameValue_isolated (name : String) :
    Isolated declared values locals fun env : Setting σ => nameValue env name := by
  cases hl : locals[name]? with
  | some v => exact (Isolated.pure v).get_bind fun _ _ => by simp only [hl]
  | none =>
    cases hk : known declared values name with
    | some v => exact (Isolated.pure v).get_bind fun _ _ => by simp only [declared?_eq_known, hl, hk]
    | none =>
      cases hc : MathLibrary.constant? name with
      | some v =>
        exact (Isolated.pure v).get_bind fun _ _ => by simp only [declared?_eq_known, hl, hk, hc]
      | none =>
        exact (Isolated.fail (.undefined name)).get_bind fun _ _ => by
          simp [declared?_eq_known, hl, hk, hc]

theorem property_isolated (v : Value) (name : String) :
    Isolated declared values locals fun _ : Setting σ => property v name := by
  unfold property
  split
  · exact .pure _
  · exact .pure _
  · exact .fail _

theorem member_isolated (object : Expr) (name : String) {value : Setting σ → Eval σ Value}
    (h : Isolated declared values locals value) :
    Isolated declared values locals fun env => member env object name (value env) := by
  have hvalue : Isolated declared values locals fun env => value env >>= fun v => property v name :=
    h.bind fun v => property_isolated v name
  unfold member
  split
  · exact variableValue_isolated name
  · cases ho : unshadowed declared values locals object with
    | none => exact hvalue.get_bind fun _ _ => by simp only [owner?_eq_unshadowed, ho]
    | some owner =>
      by_cases hm : owner = MathLibrary.owner
      · cases hc : MathLibrary.constant? name with
        | some v =>
          exact (Isolated.pure v).get_bind fun _ _ => by
            simp only [owner?_eq_unshadowed, ho, if_pos hm]
        | none =>
          exact (Isolated.fail (.notConstant owner name)).get_bind fun _ _ => by
            simp only [owner?_eq_unshadowed, ho, if_pos hm]
      · exact hvalue.get_bind fun _ _ => by simp [owner?_eq_unshadowed, ho, hm]

theorem item_isolated (object : Expr) {value index : Setting σ → Eval σ Value}
    (hv : Isolated declared values locals value) (hi : Isolated declared values locals index) :
    Isolated declared values locals fun env => item env object (value env) (index env) := by
  unfold item
  split
  · exact hi.bind fun key => variableValue_isolated key.display
  · refine hv.bind fun v => hi.bind fun key => ?_
    split
    · exact .pure _
    · split
      · exact .pure _
      · exact .fail _

theorem callFunction_isolated (awaited : Bool) (name : String) {args : Setting σ → Eval σ (List Value)}
    (h : Isolated declared values locals args) :
    Isolated declared values locals fun env => callFunction env awaited name (args env) := by
  by_cases hs : locals.contains name || (known declared values name).isSome
  · exact (Isolated.fail (.notFunction name)).get_bind fun _ _ => by
      simp only [Option.isSome_none, Bool.false_and, Bool.false_eq_true, if_false, isShadowed,
        declared?_eq_known, hs, if_true]
  · by_cases hf : MathLibrary.hasFunction name
    · exact (h.bind fun v => Isolated.mk_pure (MathLibrary.call name v)).get_bind fun _ _ => by
        simp only [Option.isSome_none, Bool.false_and, Bool.false_eq_true, if_false, isShadowed,
          declared?_eq_known, hs, hf, if_true]
    · exact (Isolated.fail (.undefined name)).get_bind fun _ _ => by
        simp only [Option.isSome_none, Bool.false_and, Bool.false_eq_true, if_false, isShadowed,
          declared?_eq_known, hs, hf]

theorem callOperation_isolated (awaited : Bool) (owner name : String)
    {args : Setting σ → Eval σ (List Value)} (h : Isolated declared values locals args) :
    Isolated declared values locals fun env => callOperation env awaited owner name (args env) := by
  by_cases hm : owner = MathLibrary.owner
  · have hcall := h.bind fun v => Isolated.mk_pure (MathLibrary.call name v)
    obtain ⟨r, hr⟩ := hcall
    refine ⟨r, fun version world => ?_⟩
    rw [← hr version world]
    simp only [callOperation, IntegrationSet.get?_mk_empty, if_pos hm]
  · refine ⟨.error (.evaluation (.undefined owner)), fun version world => ?_⟩
    simp only [callOperation, IntegrationSet.get?_mk_empty, if_neg hm, exec_fail]

theorem call_isolated (awaited : Bool) (callee : Expr) {args : Setting σ → Eval σ (List Value)}
    (h : Isolated declared values locals args) :
    Isolated declared values locals fun env => call env awaited callee (args env) := by
  unfold call
  split
  · exact callFunction_isolated awaited _ h
  · rename_i object name
    cases ho : unshadowed declared values locals object with
    | some owner =>
      exact (callOperation_isolated awaited owner name h).get_bind fun _ _ => by
        simp only [owner?_eq_unshadowed, ho]
    | none =>
      exact (Isolated.fail (.notFunction name)).get_bind fun _ _ => by
        simp only [owner?_eq_unshadowed, ho]
  · exact .fail _

mutual

theorem eval_isolated (awaited : Bool) :
    ∀ e : Expr, Isolated declared values locals fun env : Setting σ => eval env awaited e
  | .number n => .pure _
  | .string s => .pure _
  | .boolean b => .pure _
  | .null => .pure _
  | .array items => by
    simp only [eval]
    exact (evalAll_isolated items).map _
  | .template parts => by
    simp only [eval]
    exact (evalParts_isolated parts).map _
  | .identifier name => nameValue_isolated name
  | .self => .fail _
  | .member object name => member_isolated object name (eval_isolated false object)
  | .index object index => item_isolated object (eval_isolated false object) (eval_isolated false index)
  | .call callee args => call_isolated awaited callee (evalAll_isolated args)
  | .unary op operand => by
    simp only [eval]
    exact (eval_isolated false operand).map _
  | .binary op left right => by
    simp only [eval]
    refine (eval_isolated false left).bind fun a => ?_
    have hright : Isolated declared values locals fun env : Setting σ => eval env false right :=
      eval_isolated false right
    split
    · split
      · exact hright
      · exact .pure _
    · split
      · exact .pure _
      · exact hright
    · exact hright.map _
  | .ternary condition ifTrue ifFalse => by
    simp only [eval]
    refine (eval_isolated false condition).bind fun a => ?_
    split
    · exact eval_isolated false ifTrue
    · exact eval_isolated false ifFalse
  | .await operand => eval_isolated true operand

theorem evalAll_isolated :
    ∀ es : List Expr, Isolated declared values locals fun env : Setting σ => evalAll env es
  | [] => .pure _
  | e :: es => by
    simp only [evalAll]
    exact (eval_isolated false e).bind fun v => (evalAll_isolated es).map _

theorem evalParts_isolated :
    ∀ ps : List (Part Expr), Isolated declared values locals fun env : Setting σ => evalParts env ps
  | [] => .pure _
  | p :: ps => by
    simp only [evalParts]
    exact (evalPart_isolated p).bind fun s => (evalParts_isolated ps).map _

theorem evalPart_isolated :
    ∀ p : Part Expr, Isolated declared values locals fun env : Setting σ => evalPart env p
  | .text s => .pure _
  | .code e => by
    simp only [evalPart]
    exact (eval_isolated false e).map _

end

theorem exists_run_eq (declared : NameSet) (values : NameMap Value) (last : Value) (p : Program)
    (locals : NameMap Value) :
    ∃ r locals', ∀ version (world : World σ),
      exec (run ⟨⟨∅, version⟩, declared⟩ last p) ⟨world, values, locals, none⟩ =
        (r, ⟨world, values, locals', none⟩) := by
  induction p generalizing last locals with
  | nil => exact ⟨.ok last, locals, fun _ _ => rfl⟩
  | cons statement rest ih =>
    cases statement with
    | bind name e =>
      have he : Isolated declared values locals fun env : Setting σ => eval env false e :=
        eval_isolated false e
      obtain ⟨r, hr⟩ := he
      cases r with
      | error e => exact ⟨.error e, locals, fun version world => by rw [run, exec_bind, hr]⟩
      | ok v =>
        obtain ⟨r, locals', hr'⟩ := ih .null (locals.insert name v)
        refine ⟨r, locals', fun version world => ?_⟩
        rw [run, exec_bind, hr]
        exact hr' version world
    | expr e =>
      have he : Isolated declared values locals fun env : Setting σ => eval env false e :=
        eval_isolated false e
      obtain ⟨r, hr⟩ := he
      cases r with
      | error e => exact ⟨.error e, locals, fun version world => by rw [run, exec_bind, hr]⟩
      | ok v =>
        obtain ⟨r, locals', hr'⟩ := ih v locals
        refine ⟨r, locals', fun version world => ?_⟩
        rw [run, exec_bind, hr]
        exact hr' version world

theorem exec_evaluate (env : Setting σ) (mode : Await.Mode) (text : String) (m : Machine σ) :
    exec (evaluate env mode text) m = exec (do
      let source ← ExceptT.mk (pure
        (Placeholder.expand (known env.declared m.values) .source (m.world.sequence mode text).1))
      let program ← ExceptT.mk (pure (Program.parse source))
      run env .null program) { m with world := (m.world.sequence mode text).2 } := rfl

theorem sequence_fst (world : World σ) (mode : Await.Mode) (text : String) :
    (world.sequence mode text).1 = Await.sequence world.integrations mode text :=
  Await.Registry.sequence_fst _ _ _

theorem exec_evaluate_of_parse (env : Setting σ) (mode : Await.Mode) (m : Machine σ) {text source : String}
    {program : Program} (hsequence : Await.sequence m.world.integrations mode text = source)
    (hexpand : Placeholder.expand (known env.declared m.values) .source source = .ok source)
    (hparse : Program.parse source = .ok program) : exec (evaluate env mode text) m =
      exec (run env .null program) { m with world := (m.world.sequence mode text).2 } := by
  rw [exec_evaluate, sequence_fst, hsequence, hexpand]
  simp only [exec_bind, exec_mk_pure, hparse]

end Eval

theorem CommandRun.run_of_parse {σ : Type} {world : World σ} {script source : String} {program : Program}
    (scope : ScopeId) (definitions : VariableSet) (values : NameMap Value)
    (hsequence : Await.sequence world.integrations .command script = source)
    (hexpand : Placeholder.expand (Eval.known (NameSet.ofNames (definitions.names ++ values.keys)) values) .source source =
      .ok source) (hparse : Program.parse source = .ok program) :
    let answer := Eval.exec
      (Eval.run ⟨world.integrations, NameSet.ofNames (definitions.names ++ values.keys)⟩ .null program)
      ⟨((world.invoked script).2.sequence .command script).2, values, ∅, some ⟨scope, definitions, ∅⟩⟩
    let session := answer.2.session.getD ⟨scope, definitions, ∅⟩
    CommandRun.run world scope definitions values script = (⟨answer.1, session.modified,
      Await.invoked world.integrations script, session.definitions, answer.2.values⟩, answer.2.world) := by
  intro answer session
  have hanswer := Eval.exec_evaluate_of_parse
    ⟨world.integrations, NameSet.ofNames (definitions.names ++ values.keys)⟩ .command
    ⟨(world.invoked script).2, values, ∅, some ⟨scope, definitions, ∅⟩⟩ hsequence hexpand hparse
  have hinvoked : (world.invoked script).1 = Await.invoked world.integrations script :=
    Await.Registry.invoked_fst _ _
  rw [← hinvoked]
  exact congrArg (fun answer : Except SheetError Value × Machine σ =>
    ((⟨answer.1, (answer.2.session.getD ⟨scope, definitions, ∅⟩).modified, (world.invoked script).1,
      (answer.2.session.getD ⟨scope, definitions, ∅⟩).definitions, answer.2.values⟩ : CommandRun), answer.2.world)) hanswer

namespace Resolution

variable {σ : Type}

theorem evaluate_of_parse {declared : NameSet} {values : NameMap Value} {text : String} {world : World σ}
    {program : Program} (hdeferred : Await.deferredCalls world.integrations .expression = [])
    (hexpand : Placeholder.expand (Eval.known declared values) .source text = .ok text)
    (hparse : Program.parse text = .ok program) : evaluate declared values text world =
      (Eval.exec (Eval.run ⟨world.integrations, declared⟩ .null program)
        ⟨(world.sequence .expression text).2, values, ∅, none⟩).map id Machine.world := by
  have hsequence : Await.sequence world.integrations .expression text = text := by
    rw [Await.sequence, hdeferred, Await.sequenceCalls_nil, String.ofList_toList]
  exact congrArg (Prod.map id Machine.world) (Eval.exec_evaluate_of_parse
    ⟨world.integrations, declared⟩ .expression ⟨world, values, ∅, none⟩ hsequence hexpand hparse)

/-- No integration is registered in a world. -/
def NoIntegrations (world : World σ) : Prop := world.integrations.byName = ∅

namespace NoIntegrations

theorem integrations_eq {world : World σ} (h : NoIntegrations world) :
    world.integrations = ⟨∅, world.integrations.version⟩ :=
  IntegrationSet.eq_mk_empty h

theorem report {world : World σ} (h : NoIntegrations world) (kind : Event.Kind) (scope : ScopeId)
    (name : String) (v : Value) : NoIntegrations (world.report kind scope name v) := h

theorem sequence {world : World σ} (h : NoIntegrations world) (mode : Await.Mode) (text : String) :
    NoIntegrations (world.sequence mode text).2 := by
  change (world.registry.sequence mode text).2.integrations.byName = ∅
  rw [Await.Registry.integrations_sequence]
  exact h

theorem deferredCalls_eq_nil {world : World σ} (h : NoIntegrations world) :
    Await.deferredCalls world.integrations .expression = [] := by
  rw [h.integrations_eq]
  exact IntegrationSet.deferredCalls_mk_empty _

theorem evaluate_eq {world : World σ} (h : NoIntegrations world) (declared : NameSet)
    (values : NameMap Value) (text : String) : evaluate declared values text world =
      (Eval.exec (do
        let source ← ExceptT.mk (pure (Placeholder.expand (Eval.known declared values) .source text))
        let program ← ExceptT.mk (pure (Program.parse source))
        Eval.run ⟨⟨∅, world.integrations.version⟩, declared⟩ .null program)
        ⟨(world.sequence .expression text).2, values, ∅, none⟩).map id Machine.world := by
  change (Eval.exec (Eval.evaluate ⟨world.integrations, declared⟩ .expression text) ⟨world, values, ∅, none⟩).map id _ = _
  rw [Eval.exec_evaluate, Eval.sequence_fst, Await.sequence, h.deferredCalls_eq_nil, Await.sequenceCalls_nil, String.ofList_toList,
    ← h.integrations_eq]

end NoIntegrations

theorem exists_evaluate_eq (declared : NameSet) (values : NameMap Value) (text : String) :
    ∃ r, ∀ world : World σ, NoIntegrations world →
      (evaluate declared values text world).1 = r ∧
        NoIntegrations (evaluate declared values text world).2 := by
  cases hp : Placeholder.expand (Eval.known declared values) .source text with
  | error e =>
    refine ⟨.error e, fun world h => ?_⟩
    rw [h.evaluate_eq, hp]
    exact ⟨rfl, h.sequence _ _⟩
  | ok source =>
    cases hq : Program.parse source with
    | error e =>
      refine ⟨.error e, fun world h => ?_⟩
      rw [h.evaluate_eq, hp]
      simp only [Eval.exec_bind, Eval.exec_mk_pure, hq]
      exact ⟨rfl, h.sequence _ _⟩
    | ok program =>
      obtain ⟨r, locals, hr⟩ := Eval.exists_run_eq (σ := σ) declared values .null program ∅
      refine ⟨r, fun world h => ?_⟩
      rw [h.evaluate_eq, hp]
      simp only [Eval.exec_bind, Eval.exec_mk_pure, hq, hr]
      exact ⟨rfl, h.sequence _ _⟩

end Resolution

end LiveSheet
