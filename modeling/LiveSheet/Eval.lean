import LiveSheet.Expr.Parser
import LiveSheet.MathLibrary
import LiveSheet.Placeholder
import LiveSheet.Value.Operator
import LiveSheet.Variable
import LiveSheet.World

/-!
Evaluation. Expressions are evaluated from left to right over the values of a scope; scripts
can also write to variables. A text is first sequenced so that deferred calls are awaited,
then its placeholders are expanded, and only then it is read.
-/

namespace LiveSheet

structure Session where
  scope : ScopeId
  definitions : VariableSet
  modified : NameSet

/-- What evaluation changes. Without a session nothing can be written. -/
structure Machine (σ : Type) where
  world : World σ
  values : NameMap Value
  locals : NameMap Value
  session : Option Session

structure Setting (σ : Type) where
  integrations : IntegrationSet σ
  declared : NameSet

abbrev Eval (σ : Type) := ExceptT SheetError (StateM (Machine σ))

namespace Eval

variable {σ : Type}

def fail {α : Type} (fault : EvalFault) : Eval σ α := throw (.evaluation fault)

def declared? (env : Setting σ) (m : Machine σ) (name : String) : Option Value :=
  match m.values[name]? with
  | some v => some v
  | none => if env.declared.contains name then some .null else none

def variableValue (env : Setting σ) (name : String) : Eval σ Value := do
  match declared? env (← get) name with
  | some v => return v
  | none => fail (.undeclared name)

def nameValue (env : Setting σ) (name : String) : Eval σ Value := do
  let m ← get
  match m.locals[name]? with
  | some v => return v
  | none =>
    match declared? env m name with
    | some v => return v
    | none =>
      match MathLibrary.constant? name with
      | some v => return v
      | none =>
        if env.integrations.contains name then fail (.namespaceAsValue name)
        else fail (.undefined name)

def isShadowed (env : Setting σ) (m : Machine σ) (name : String) : Bool :=
  m.locals.contains name || (declared? env m name).isSome

/-- The name of an unshadowed owner: what stands before the dot of `Math.floor`. -/
def owner? (env : Setting σ) (m : Machine σ) : Expr → Option String
  | .identifier name => if isShadowed env m name then none else some name
  | _ => none

def property (v : Value) (name : String) : Eval σ Value :=
  match v, name with
  | .string s, "length" => return .number (.ofNat s.length)
  | .array items, "length" => return .number (.ofNat items.length)
  | v, name => fail (.noProperty v.kind name)

/-- A member of an object, which is evaluated if it is neither `this` nor an owner. -/
def member (env : Setting σ) (object : Expr) (name : String) (value : Eval σ Value) : Eval σ Value := do
  match object with
  | .self => variableValue env name
  | object =>
    let m ← get
    match owner? env m object with
    | none => property (← value) name
    | some owner =>
      if owner = MathLibrary.owner then
        match MathLibrary.constant? name with
        | some v => return v
        | none => fail (.notConstant owner name)
      else if env.integrations.contains owner then fail (.operationAsValue owner name)
      else property (← value) name

/-- An item of a list or a character of a text, null where there is none. An index into
`this` is the name of a variable. -/
def item (env : Setting σ) (object : Expr) (value index : Eval σ Value) : Eval σ Value := do
  match object with
  | .self => variableValue env (← index).display
  | _ =>
    let v ← value
    let key ← index
    match Number.index? key.toNumber with
    | none => return .null
    | some position =>
      match v.item? position with
      | some w => return w
      | none => fail (.notIndexable v.kind)

/-- Writes a value to a variable: it becomes a literal within its bounds, the value is kept
in the store, and the host is told. -/
def write (s : Session) (name : String) (value : Value) : Eval σ Value := do
  match s.definitions.write? name value with
  | none => throw (.unknownVariable name)
  | some (stored, definitions) =>
    modify fun m => { m with
      values := m.values.insert name stored
      session := some { s with definitions := definitions, modified := s.modified.insert name }
      world := (({ m.world with store := m.world.store.keep s.scope name stored }).report
        .modified s.scope name stored).report .resolved s.scope name stored }
    return stored

def increased (s : Session) (name : String) (delta : Value) : Eval σ Value := do
  if !s.definitions.contains name then throw (.unknownVariable name)
  let current := ((← get).values[name]?.bind Value.number?).getD 0
  match delta with
  | .number n => return .number (current + n)
  | other =>
    let n := other.toNumber
    if n.isNaN then fail (.addsNonNumber name other.kind)
    else return .number (current + n)

def callWriter (name : String) (args : List Value) : Eval σ Value := do
  match args with
  | .string target :: rest =>
    let argument := rest.head?.getD .null
    match (← get).session with
    | none => fail (.undefined name)
    | some s =>
      if name = "setValue" then write s target argument
      else write s target (← increased s target argument)
  | other => fail (.writeWithoutName name (other.head?.map Value.kind))

def callFunction (env : Setting σ) (awaited : Bool) (name : String) (args : Eval σ (List Value)) :
    Eval σ Value := do
  let m ← get
  if m.session.isSome && Await.writers.contains name then
    if awaited then callWriter name (← args) else fail (.writeNotAwaited name)
  else if isShadowed env m name then fail (.notFunction name)
  else if MathLibrary.hasFunction name then
    ExceptT.mk (pure (MathLibrary.call name (← args)))
  else fail (.undefined name)

def callOperation (env : Setting σ) (awaited : Bool) (owner name : String)
    (args : Eval σ (List Value)) : Eval σ Value := do
  match env.integrations.get? owner with
  | none =>
    if owner = MathLibrary.owner then ExceptT.mk (pure (MathLibrary.call name (← args)))
    else fail (.undefined owner)
  | some integration =>
    match integration.operations[name]? with
    | none => fail (.unknownOperation owner name)
    | some op =>
      if op.deferred && !awaited then fail (.deferredNotAwaited owner name)
      else
        let values ← args
        ExceptT.mk (modifyGet fun m =>
          let (result, world) := m.world.perform owner name op values
          (result, { m with world }))

def call (env : Setting σ) (awaited : Bool) (callee : Expr) (args : Eval σ (List Value)) :
    Eval σ Value := do
  match callee with
  | .identifier name => callFunction env awaited name args
  | .member object name =>
    match owner? env (← get) object with
    | some owner => callOperation env awaited owner name args
    | none => fail (.notFunction name)
  | _ => fail .notCallable

mutual

/-- The value of an expression. `awaited` says whether it stands right behind `await`. -/
def eval (env : Setting σ) (awaited : Bool) : Expr → Eval σ Value
  | .number n => return .number n
  | .string s => return .string s
  | .boolean b => return .bool b
  | .null => return .null
  | .array items => do return .array (← evalAll env items)
  | .template parts => do return .string (← evalParts env parts)
  | .identifier name => nameValue env name
  | .self => fail .loneThis
  | .member object name => member env object name (eval env false object)
  | .index object index => item env object (eval env false object) (eval env false index)
  | .call callee args => call env awaited callee (evalAll env args)
  | .unary op operand => do return (← eval env false operand).unary op
  | .binary op left right => do
    let a ← eval env false left
    match op with
    | .and => if a.isTruthy then eval env false right else return a
    | .or => if a.isTruthy then return a else eval env false right
    | op => return a.binary op (← eval env false right)
  | .ternary condition ifTrue ifFalse => do
    if (← eval env false condition).isTruthy then eval env false ifTrue else eval env false ifFalse
  | .await operand => eval env true operand

def evalAll (env : Setting σ) : List Expr → Eval σ (List Value)
  | [] => return []
  | e :: es => do
    let v ← eval env false e
    return v :: (← evalAll env es)

def evalParts (env : Setting σ) : List (Part Expr) → Eval σ String
  | [] => return ""
  | p :: ps => do
    let s ← evalPart env p
    return s ++ (← evalParts env ps)

def evalPart (env : Setting σ) : Part Expr → Eval σ String
  | .text s => return s
  | .code e => do return (← eval env false e).display

end

/-- Runs the statements of a script. Its value is that of the last statement; a binding has
none. -/
def run (env : Setting σ) (last : Value) : Program → Eval σ Value
  | [] => return last
  | .bind name e :: rest => do
    let v ← eval env false e
    modify fun m => { m with locals := m.locals.insert name v }
    run env .null rest
  | .expr e :: rest => do
    let v ← eval env false e
    run env v rest

def evaluate (env : Setting σ) (mode : Await.Mode) (text : String) : Eval σ Value := do
  let sequenced ← modifyGet fun m : Machine σ =>
    let (sequenced, world) := m.world.sequence mode text
    (sequenced, { m with world })
  let m ← get
  let source ← ExceptT.mk (pure (Placeholder.expand (declared? env m) .source sequenced))
  let program ← ExceptT.mk (pure (Program.parse source))
  run env .null program

end Eval

/-- Reads a text as it would be evaluated, with null for every placeholder. -/
def checkSyntax {σ : Type} (set : IntegrationSet σ) (mode : Await.Mode) (text : String) :
    Except SheetError Unit := do
  let source ← Placeholder.expand (fun _ => some .null) .source (Await.sequence set mode text)
  let _ ← Program.parse source

end LiveSheet
