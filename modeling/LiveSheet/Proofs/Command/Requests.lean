import LiveSheet.Command
import LiveSheet.Proofs.Eval.Exec

/-! The writes a script asks for, read off its expressions in the order they are evaluated. The variables, the
values, the store and the events are changed by these writes, one after the other, and by nothing else. -/

namespace LiveSheet

structure Write where
  name : String
  value : Value

/-- The places where a write leaves its value, and the names written so far. -/
structure Copies where
  scope : ScopeId
  definitions : VariableSet
  values : NameMap Value
  store : Store
  modified : NameSet
  /-- The events so far, the latest first. -/
  events : List Event

/-- A write to a variable that is not declared changes nothing. -/
def Copies.write (c : Copies) (w : Write) : Copies :=
  match c.definitions.write? w.name w.value with
  | none => c
  | some (stored, definitions) =>
    { c with
      definitions := definitions
      values := c.values.insert w.name stored
      store := c.store.keep c.scope w.name stored
      modified := c.modified.insert w.name
      events := ⟨.resolved, c.scope, w.name, stored⟩ :: ⟨.modified, c.scope, w.name, stored⟩ :: c.events }

variable {σ α β : Type}

def Machine.copies? (m : Machine σ) : Option Copies :=
  m.session.map fun s => ⟨s.scope, s.definitions, m.values, m.world.store, s.modified, m.world.events⟩

namespace Eval

/-- What is asked for after an evaluation; nothing if it fails. -/
def andThen (x : Eval σ α) (m : Machine σ) (next : α → Machine σ → List Write) : List Write :=
  match exec x m with
  | (.ok a, m) => next a m
  | (.error _, _) => []

/-- What a function that writes asks for: `setValue` its argument, `addValue` the sum, if there is one. -/
def requested (name : String) (args : List Value) (m : Machine σ) : List Write :=
  match args, m.session with
  | .string target :: rest, some s =>
    let argument := rest.head?.getD .null
    if name = "setValue" then [⟨target, argument⟩]
    else andThen (increased s target argument) m fun sum _ => [⟨target, sum⟩]
  | _, _ => []

def needsObject (env : Setting σ) (m : Machine σ) : Expr → Bool
  | .self => false
  | object => (owner? env m object).all fun owner =>
      owner != MathLibrary.owner && !env.integrations.contains owner

def needsArguments (env : Setting σ) (awaited : Bool) (owner name : String) : Bool :=
  match env.integrations.get? owner with
  | none => owner == MathLibrary.owner
  | some integration =>
    match integration.operations[name]? with
    | none => false
    | some op => !(op.deferred && !awaited)

/-- What a call asks for, given what its arguments ask for: that first, and then its own write if it is the call of
a function that writes. -/
def writesCall (env : Setting σ) (awaited : Bool) (m : Machine σ) (callee : Expr) (args : Eval σ (List Value))
    (before : List Write) : List Write :=
  match callee with
  | .identifier name =>
    if m.session.isSome && Await.writers.contains name then
      if awaited then before ++ andThen args m (requested name) else []
    else if isShadowed env m name then []
    else if MathLibrary.hasFunction name then before
    else []
  | .member object name =>
    match owner? env m object with
    | none => []
    | some owner => if needsArguments env awaited owner name then before else []
  | _ => []

/-- What an index asks for. Its object is not evaluated if it is `this`. -/
def writesItem (m : Machine σ) (object : Expr) (value : Eval σ Value) (before : List Write)
    (index : Machine σ → List Write) : List Write :=
  match object with
  | .self => index m
  | _ => before ++ andThen value m fun _ m => index m

mutual

def writes (env : Setting σ) (awaited : Bool) (m : Machine σ) : Expr → List Write
  | .array items => writesAll env m items
  | .template parts => writesParts env m parts
  | .member object _ => if needsObject env m object then writes env false m object else []
  | .index object index =>
    writesItem m object (eval env false object) (writes env false m object) fun m => writes env false m index
  | .call callee args => writesCall env awaited m callee (evalAll env args) (writesAll env m args)
  | .unary _ operand => writes env false m operand
  | .binary op left right =>
    writes env false m left ++ andThen (eval env false left) m fun a m =>
      match op with
      | .and => if a.isTruthy then writes env false m right else []
      | .or => if a.isTruthy then [] else writes env false m right
      | _ => writes env false m right
  | .ternary condition ifTrue ifFalse =>
    writes env false m condition ++ andThen (eval env false condition) m fun a m =>
      if a.isTruthy then writes env false m ifTrue else writes env false m ifFalse
  | .await operand => writes env true m operand
  | _ => []

def writesAll (env : Setting σ) (m : Machine σ) : List Expr → List Write
  | [] => []
  | e :: es => writes env false m e ++ andThen (eval env false e) m fun _ m => writesAll env m es

def writesParts (env : Setting σ) (m : Machine σ) : List (Part Expr) → List Write
  | [] => []
  | p :: ps => writesPart env m p ++ andThen (evalPart env p) m fun _ m => writesParts env m ps

def writesPart (env : Setting σ) (m : Machine σ) : Part Expr → List Write
  | .text _ => []
  | .code e => writes env false m e

end

def writesRun (env : Setting σ) (m : Machine σ) : Program → List Write
  | [] => []
  | .bind name e :: rest => writes env false m e ++ andThen (eval env false e) m fun v m =>
      writesRun env { m with locals := m.locals.insert name v } rest
  | .expr e :: rest => writes env false m e ++ andThen (eval env false e) m fun _ m => writesRun env m rest

/-- The writes that a sequenced text asks for; none if it cannot be read. -/
def writesSource (env : Setting σ) (sequenced : String) (m : Machine σ) : List Write :=
  match Placeholder.expand (declared? env m) .source sequenced with
  | .error _ => []
  | .ok source =>
    match Program.parse source with
    | .error _ => []
    | .ok program => writesRun env m program

def writesText (env : Setting σ) (mode : Await.Mode) (m : Machine σ) (text : String) : List Write :=
  let (sequenced, world) := m.world.sequence mode text
  writesSource env sequenced { m with world }

/-- An evaluation changes the copies by some writes. -/
def Performs (x : Eval σ α) (m : Machine σ) (ws : List Write) : Prop :=
  (exec x m).2.copies? = m.copies?.map fun c => ws.foldl Copies.write c

namespace Performs

variable {x : Eval σ α} {m : Machine σ} {ws : List Write}

theorem of_copies (h : (exec x m).2.copies? = m.copies?) : Performs x m [] := by
  rw [Performs, h]
  simp

theorem pure (a : α) (m : Machine σ) : Performs (Pure.pure a) m [] := of_copies rfl

theorem fail (fault : EvalFault) (m : Machine σ) : Performs (fail fault : Eval σ α) m [] := of_copies rfl

theorem mk_pure (r : Except SheetError α) (m : Machine σ) : Performs (ExceptT.mk (Pure.pure r)) m [] :=
  of_copies rfl

theorem get_bind {f : Machine σ → Eval σ α} (h : Performs (f m) m ws) : Performs (get >>= f) m ws := h

theorem ok_bind {f : α → Eval σ β} {a : α} (h : Performs (f a) m ws) :
    Performs (ExceptT.mk (Pure.pure (.ok a)) >>= f) m ws := h

theorem bind {f : α → Eval σ β} {next : α → Machine σ → List Write} (hx : Performs x m ws)
    (hf : ∀ a m', Performs (f a) m' (next a m')) : Performs (x >>= f) m (ws ++ andThen x m next) := by
  rw [Performs, exec_bind, andThen]
  rw [Performs] at hx
  generalize exec x m = answer at hx
  obtain ⟨_ | a, m'⟩ := answer
  · simpa using hx
  · simp only at hx ⊢
    rw [hf a m', hx, Option.map_map]
    simp [Function.comp_def]

theorem andThen_nil (x : Eval σ α) (m : Machine σ) : andThen x m (fun _ _ => []) = [] := by
  unfold andThen
  split <;> rfl

theorem quiet {f : α → Eval σ β} (hx : Performs x m ws) (hf : ∀ a m', Performs (f a) m' []) :
    Performs (x >>= f) m ws := by
  have h := hx.bind hf
  rwa [andThen_nil, List.append_nil] at h

theorem map (f : α → β) (hx : Performs x m ws) : Performs (x >>= fun a => Pure.pure (f a)) m ws :=
  hx.quiet fun a m' => pure (f a) m'

end Performs

theorem performs_of_preserves {x : Eval σ α} (h : ∀ c, Preserves (fun m => m.copies? = c) x) (m : Machine σ) :
    Performs x m [] := .of_copies (h _ m rfl)

theorem variableValue_performs (env : Setting σ) (name : String) (m : Machine σ) :
    Performs (variableValue env name) m [] :=
  performs_of_preserves (fun _ => variableValue_preserves env name) m

theorem nameValue_performs (env : Setting σ) (name : String) (m : Machine σ) : Performs (nameValue env name) m [] :=
  performs_of_preserves (fun _ => nameValue_preserves env name) m

theorem property_performs (v : Value) (name : String) (m : Machine σ) :
    Performs (property v name : Eval σ Value) m [] :=
  performs_of_preserves (fun _ => property_preserves v name) m

theorem needsObject_eq (env : Setting σ) (m : Machine σ) {object : Expr} (h : object ≠ .self) :
    needsObject env m object = (owner? env m object).all fun owner =>
      owner != MathLibrary.owner && !env.integrations.contains owner := by
  cases object with
  | self => exact absurd rfl h
  | _ => rfl

theorem member_performs (env : Setting σ) (object : Expr) (name : String) {value : Eval σ Value} {m : Machine σ}
    {ws : List Write} (h : Performs value m ws) :
    Performs (member env object name value) m (if needsObject env m object then ws else []) := by
  have hvalue : Performs (value >>= fun v => property v name) m ws :=
    h.quiet fun v m' => property_performs v name m'
  by_cases hself : object = .self
  · subst hself
    exact variableValue_performs env name m
  rw [member_eq env hself, needsObject_eq env m hself]
  refine .get_bind ?_
  cases owner? env m object with
  | none => exact hvalue
  | some owner =>
    by_cases hmath : owner = MathLibrary.owner
    · simp only [memberOf, hmath, if_true, Option.all_some, bne_self_eq_false, Bool.false_and, Bool.false_eq_true,
        if_false]
      split
      · exact .pure _ m
      · exact .fail _ m
    · simp only [memberOf, if_neg hmath, Option.all_some, bne_iff_ne.2 hmath, Bool.true_and]
      cases env.integrations.contains owner with
      | true => exact .fail _ m
      | false => exact hvalue

theorem write_performs {m : Machine σ} {s : Session} (hs : m.session = some s) (name : String) (value : Value) :
    Performs (write s name value) m [⟨name, value⟩] := by
  rw [Performs, exec_write]
  cases hw : s.definitions.write? name value with
  | none => simp [Machine.copies?, hs, Copies.write, hw]
  | some written => simp [Machine.copies?, hs, Copies.write, hw, Machine.written, World.report]

theorem addValue_performs {m : Machine σ} {s : Session} (hs : m.session = some s) (target : String) (delta : Value) :
    Performs (increased s target delta >>= fun sum => write s target sum) m
      (andThen (increased s target delta) m fun sum _ => [⟨target, sum⟩]) := by
  rw [Performs, exec_bind, andThen]
  have hsame := exec_increased_snd s target delta m
  generalize exec (increased s target delta) m = answer at hsame
  obtain ⟨_ | sum, m'⟩ := answer
  · obtain rfl : m' = m := hsame
    simp
  · obtain rfl : m' = m := hsame
    exact write_performs hs target sum

theorem callWriter_performs (name : String) (args : List Value) (m : Machine σ) :
    Performs (callWriter name args) m (requested name args m) := by
  cases args with
  | nil => exact .fail _ m
  | cons first rest =>
    cases first with
    | string target =>
      refine .get_bind ?_
      simp only [requested]
      cases hs : m.session with
      | none => exact .fail _ m
      | some s =>
        dsimp only
        split
        · exact write_performs hs target _
        · exact addValue_performs hs target _
    | _ => exact .fail _ m

theorem perform_performs (owner name : String) (op : Operation σ) (args : List Value) (m : Machine σ) :
    Performs (ExceptT.mk (modifyGet fun m : Machine σ =>
      let (result, world) := m.world.perform owner name op args
      (result, { m with world }))) m [] := .of_copies rfl

theorem callFunction_performs (env : Setting σ) (awaited : Bool) (name : String) {args : Eval σ (List Value)}
    {m : Machine σ} {before : List Write} (h : Performs args m before) :
    Performs (callFunction env awaited name args) m (writesCall env awaited m (.identifier name) args before) := by
  rw [callFunction, writesCall]
  refine .get_bind ?_
  split
  · split
    · exact h.bind fun values m' => callWriter_performs name values m'
    · exact .fail _ m
  · split
    · exact .fail _ m
    · split
      · exact h.quiet fun values m' => .mk_pure _ m'
      · exact .fail _ m

theorem callOperation_performs (env : Setting σ) (awaited : Bool) (owner name : String)
    {args : Eval σ (List Value)} {m : Machine σ} {before : List Write} (h : Performs args m before) :
    Performs (callOperation env awaited owner name args) m
      (if needsArguments env awaited owner name then before else []) := by
  unfold callOperation needsArguments
  cases env.integrations.get? owner with
  | none =>
    dsimp only
    by_cases hmath : owner = MathLibrary.owner
    · rw [if_pos hmath, if_pos (beq_iff_eq.2 hmath)]
      exact h.quiet fun values m' => .mk_pure _ m'
    · rw [if_neg hmath, if_neg (mt beq_iff_eq.1 hmath)]
      exact .fail _ m
  | some integration =>
    dsimp only
    rcases Option.eq_none_or_eq_some integration.operations[name]? with hop | ⟨op, hop⟩
    · simp only [hop]
      exact .fail _ m
    · simp only [hop]
      cases op.deferred && !awaited with
      | true => exact .fail _ m
      | false => exact h.quiet fun values m' => perform_performs owner name op values m'

theorem call_performs (env : Setting σ) (awaited : Bool) (callee : Expr) {args : Eval σ (List Value)} {m : Machine σ}
    {before : List Write} (h : Performs args m before) :
    Performs (call env awaited callee args) m (writesCall env awaited m callee args before) := by
  cases callee with
  | identifier name => exact callFunction_performs env awaited name h
  | member object name =>
    rw [call, writesCall]
    refine .get_bind ?_
    split
    · next howner =>
      rw [howner]
      exact callOperation_performs env awaited _ name h
    · next howner =>
      rw [howner]
      exact .fail _ m
  | _ => exact .fail _ m

theorem item_performs (env : Setting σ) (object : Expr) {value index : Eval σ Value} {m : Machine σ}
    {before : List Write} {after : Machine σ → List Write} (hv : Performs value m before)
    (hi : ∀ m', Performs index m' (after m')) :
    Performs (item env object value index) m (writesItem m object value before after) := by
  by_cases hself : object = .self
  · subst hself
    exact (hi m).quiet fun key m' => variableValue_performs env key.display m'
  · have hwrites : writesItem m object value before after = before ++ andThen value m fun _ m => after m := by
      cases object with
      | self => exact absurd rfl hself
      | _ => rfl
    rw [hwrites, item_eq env hself]
    refine hv.bind fun v m' => (hi m').quiet fun key m'' => ?_
    split
    · exact .pure _ m''
    · split
      · exact .pure _ m''
      · exact .fail _ m''

mutual

theorem eval_performs (env : Setting σ) (awaited : Bool) (m : Machine σ) : ∀ e : Expr,
    Performs (eval env awaited e) m (writes env awaited m e)
  | .number n => .pure _ m
  | .string s => .pure _ m
  | .boolean b => .pure _ m
  | .null => .pure _ m
  | .array items => by
    rw [eval, writes]
    exact (evalAll_performs env m items).map _
  | .template parts => by
    rw [eval, writes]
    exact (evalParts_performs env m parts).map _
  | .identifier name => nameValue_performs env name m
  | .self => .fail _ m
  | .member object name => by
    rw [writes]
    exact member_performs env object name (eval_performs env false m object)
  | .index object index => by
    rw [writes]
    exact item_performs env object (eval_performs env false m object) fun m' => eval_performs env false m' index
  | .call callee args => by
    rw [writes]
    exact call_performs env awaited callee (evalAll_performs env m args)
  | .unary op operand => by
    rw [eval, writes]
    exact (eval_performs env false m operand).map _
  | .binary op left right => by
    rw [eval, writes]
    refine (eval_performs env false m left).bind fun a m' => ?_
    have hright := eval_performs env false m' right
    cases op with
    | and =>
      dsimp only
      split
      · exact hright
      · exact .pure _ m'
    | or =>
      dsimp only
      split
      · exact .pure _ m'
      · exact hright
    | _ => exact hright.map _
  | .ternary condition ifTrue ifFalse => by
    rw [eval, writes]
    refine (eval_performs env false m condition).bind fun a m' => ?_
    split
    · exact eval_performs env false m' ifTrue
    · exact eval_performs env false m' ifFalse
  | .await operand => by
    rw [eval, writes]
    exact eval_performs env true m operand

theorem evalAll_performs (env : Setting σ) (m : Machine σ) : ∀ es : List Expr,
    Performs (evalAll env es) m (writesAll env m es)
  | [] => .pure _ m
  | e :: es => by
    rw [evalAll, writesAll]
    exact (eval_performs env false m e).bind fun v m' => (evalAll_performs env m' es).map _

theorem evalParts_performs (env : Setting σ) (m : Machine σ) : ∀ ps : List (Part Expr),
    Performs (evalParts env ps) m (writesParts env m ps)
  | [] => .pure _ m
  | p :: ps => by
    rw [evalParts, writesParts]
    exact (evalPart_performs env m p).bind fun s m' => (evalParts_performs env m' ps).map _

theorem evalPart_performs (env : Setting σ) (m : Machine σ) : ∀ p : Part Expr,
    Performs (evalPart env p) m (writesPart env m p)
  | .text s => .pure _ m
  | .code e => by
    rw [evalPart, writesPart]
    exact (eval_performs env false m e).map _

end

theorem run_performs (env : Setting σ) (last : Value) (p : Program) (m : Machine σ) :
    Performs (run env last p) m (writesRun env m p) := by
  induction p generalizing last m with
  | nil => exact .pure _ m
  | cons statement rest ih =>
    cases statement with
    | bind name e =>
      exact (eval_performs env false m e).bind fun v m' => ih .null { m' with locals := m'.locals.insert name v }
    | expr e => exact (eval_performs env false m e).bind fun v m' => ih v m'

theorem evaluate_performs (env : Setting σ) (mode : Await.Mode) (text : String) (m : Machine σ) :
    Performs (evaluate env mode text) m (writesText env mode m text) := by
  refine @Performs.bind σ String Value _ m [] _ (writesSource env) (.of_copies rfl) fun sequenced m' => ?_
  refine .get_bind ?_
  rw [writesSource]
  cases Placeholder.expand (declared? env m') .source sequenced with
  | error e => exact .of_copies rfl
  | ok source =>
    refine .ok_bind ?_
    dsimp only
    cases Program.parse source with
    | error e => exact .of_copies rfl
    | ok program => exact .ok_bind (run_performs env .null program m')

end Eval

end LiveSheet
