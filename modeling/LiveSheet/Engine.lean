import LiveSheet.Resolution

/-!
The engine: the scopes of a sheet, their current values, and the world they are evaluated
in. A pass over a page starts from the values of the global scope, so pages can read global
variables.
-/

namespace LiveSheet

structure ScopeState where
  definitions : VariableSet
  values : NameMap Value
  commands : NameMap String
  labels : NameMap String
  /-- Whether the scope has been resolved since it was declared. -/
  loaded : Bool

def ScopeState.empty : ScopeState := ⟨.empty, ∅, ∅, ∅, false⟩

structure Engine (σ : Type) where
  world : World σ
  global : ScopeState
  pages : NameMap ScopeState
  /-- The names of the look-up tables that the sheet declares. -/
  tables : NameSet

namespace Engine

variable {σ : Type}

def start (host : σ) (store : Store) : Engine σ := ⟨.start host store, .empty, ∅, ∅⟩

def scopeIds (e : Engine σ) : List ScopeId := .global :: e.pages.keys.map .page

def scope? (e : Engine σ) : ScopeId → Option ScopeState
  | .global => some e.global
  | .page name => e.pages[name]?

def scope (e : Engine σ) (id : ScopeId) : Except SheetError ScopeState :=
  match e.scope? id with
  | some s => .ok s
  | none => .error (.unknownScope id.text)

def setScope (e : Engine σ) (id : ScopeId) (s : ScopeState) : Engine σ :=
  match id with
  | .global => { e with global := s }
  | .page name => { e with pages := e.pages.insert name s }

def scopeOrEmpty (e : Engine σ) (id : ScopeId) : ScopeState := (e.scope? id).getD .empty

/-- Declares a variable. Its scope exists from then on, even if the variable is refused. -/
def define (e : Engine σ) (id : ScopeId) (v : Variable) : Except SheetError Unit × Engine σ :=
  let s := e.scopeOrEmpty id
  let (answer, definitions) := s.definitions.insertInPlace v
  (answer, e.setScope id { s with definitions })

def addCommand (e : Engine σ) (id : ScopeId) (name script : String) : Engine σ :=
  let s := e.scopeOrEmpty id
  e.setScope id { s with commands := s.commands.insert name script }

def addLabel (e : Engine σ) (id : ScopeId) (name text : String) : Engine σ :=
  let s := e.scopeOrEmpty id
  e.setScope id { s with labels := s.labels.insert name text }

def integrations (e : Engine σ) : IntegrationSet σ := e.world.integrations

def register (e : Engine σ) (integration : Integration σ) : Engine σ :=
  { e with world := { e.world with registry := (e.world.registry.register integration).invalidate } }

def remove (e : Engine σ) (name : String) : Engine σ :=
  if e.integrations.contains name then
    { e with world := { e.world with registry := (e.world.registry.remove name).invalidate } }
  else e

/-- Stored values take the place of the declared rules; those of unknown names do not count. -/
def overlay (definitions : VariableSet) (stored : NameMap Value) : VariableSet :=
  stored.toList.foldl (fun set (name, value) => ((set.write? name value).map Prod.snd).getD set) definitions

/-- The variables of a scope with the values of a store in place. -/
def overlaid (id : ScopeId) (store : Store) (definitions : VariableSet) : VariableSet :=
  match store.load id with
  | .ok stored => overlay definitions stored
  | .error _ => definitions

def seed (e : Engine σ) : ScopeId → NameMap Value
  | .global => ∅
  | .page _ => e.global.values

def resolve (e : Engine σ) (id : ScopeId) : Except SheetError (Resolution × Engine σ) := do
  let s ← e.scope id
  let definitions := overlaid id e.world.store s.definitions
  let (resolution, world) := Resolution.resolve (e.world.note (.load id)) id definitions (e.seed id) none
  let s := { s with definitions, values := resolution.values, loaded := true }
  return (resolution, { e with world }.setScope id s)

/-- Loads a scope. The global scope is loaded before the first page. -/
def load (e : Engine σ) (id : ScopeId) : Except SheetError (Resolution × Engine σ) := do
  let _ ← e.scope id
  match id with
  | .global => e.resolve id
  | .page _ =>
    if e.global.loaded then e.resolve id
    else
      let (_, e) ← e.resolve .global
      e.resolve id

def loadEach (e : Engine σ) : List ScopeId → Except SheetError (List (ScopeId × Resolution) × Engine σ)
  | [] => .ok ([], e)
  | id :: ids => do
    let (resolution, e) ← e.resolve id
    let (resolutions, e) ← e.loadEach ids
    return ((id, resolution) :: resolutions, e)

def loadAll (e : Engine σ) : Except SheetError (List (ScopeId × Resolution) × Engine σ) :=
  e.loadEach e.scopeIds

def value? (e : Engine σ) (id : ScopeId) (name : String) : Option Value :=
  (e.scope? id).bind (·.values[name]?)

def graph (e : Engine σ) (id : ScopeId) : Except SheetError Graph := do
  let s ← e.scope id
  return Resolution.graph e.world s.definitions

def schedule (e : Engine σ) (id : ScopeId) : Except SheetError Schedule := do
  let g ← e.graph id
  return .ofGraph g none

def render (e : Engine σ) (id : ScopeId) (text : String) : Except SheetError String := do
  let s ← e.scope id
  let lookup := fun name => match s.values[name]? with
    | some v => some v
    | none => if s.definitions.contains name then some .null else none
  Placeholder.expand lookup .display text

def renderLabel (e : Engine σ) (id : ScopeId) (name : String) : Except SheetError String := do
  let s ← e.scope id
  match s.labels[name]? with
  | some text => e.render id text
  | none => .error (.definition name (.noLabel id.text))

def checkScope (set : IntegrationSet σ) (id : ScopeId) (s : ScopeState) : List (String × SheetError) :=
  let failure := fun mode (place, text) =>
    match checkSyntax set mode text with
    | .ok _ => none
    | .error fault => some (id.text ++ ": " ++ place, fault)
  let expressions := s.definitions.declared.filterMap fun v => v.expression?.map (v.name, ·)
  let commands := s.commands.toList.map fun (name, script) => ("command " ++ name, script)
  expressions.filterMap (failure .expression) ++ commands.filterMap (failure .command)

def check (e : Engine σ) : List (String × SheetError) :=
  checkScope e.integrations .global e.global
    ++ e.pages.toList.flatMap fun (name, s) => checkScope e.integrations (.page name) s

end Engine

end LiveSheet
