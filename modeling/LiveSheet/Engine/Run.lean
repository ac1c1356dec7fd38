import LiveSheet.Command
import LiveSheet.Engine
import LiveSheet.Propagation

/-!
Running commands in an engine. What a command changes is propagated to everything that reads
it; what changes in the global scope is also carried to the loaded pages.
-/

namespace LiveSheet

structure Outcome where
  /-- The value of the last statement, or why the script stopped. -/
  result : Except SheetError Value
  modified : NameSet
  /-- The variables written to, and those that read an integration the script invokes. -/
  affected : NameSet
  /-- The variables of the scope that were evaluated again, in that order. -/
  recomputed : List String
  refreshed : List (ScopeId × String)
  brokenEdges : List BrokenEdge
  diagnostics : List Diagnostic

/-- The outcome of a script and the pass that follows it, before pages are refreshed. -/
def Outcome.of (run : CommandRun) (plan : Propagation) (resolution : Resolution) : Outcome where
  result := run.outcome
  modified := run.modified
  affected := plan.affected
  recomputed := resolution.order
  refreshed := []
  brokenEdges := resolution.brokenEdges
  diagnostics := resolution.diagnostics

def Outcome.refresh (outcome : Outcome) (refreshed : List (ScopeId × String)) (diagnostics : List Diagnostic) : Outcome :=
  { outcome with refreshed, diagnostics := outcome.diagnostics ++ diagnostics }

namespace Engine

variable {σ : Type}

/-- Gives a page the values of global variables it does not declare itself, and evaluates
again what reads them. -/
def refreshPage (world : World σ) (id : ScopeId) (globals : NameMap Value) (changed : NameSet)
    (s : ScopeState) : ScopeState × List String × List Diagnostic × World σ :=
  let visible := changed.names.filter fun name => !s.definitions.contains name
  let values := visible.foldl (fun m name => match globals[name]? with
    | some v => m.insert name v
    | none => m) s.values
  let readers := Propagation.readersOf s.definitions (NameSet.ofNames visible)
  if readers.isEmpty then ({ s with values }, [], [], world)
  else
    let g := Resolution.graph world s.definitions
    let (resolution, world) :=
      Resolution.ofGraph world id s.definitions g values (some (g.reverseClosure readers))
    ({ s with values := resolution.values }, resolution.order, resolution.diagnostics, world)

/-- Carries changes of the global scope to the loaded ones of some pages. -/
def refreshPages (changed : NameSet) : Engine σ → List String →
    List (ScopeId × String) × List Diagnostic × Engine σ
  | e, [] => ([], [], e)
  | e, name :: names =>
    match e.pages[name]? with
    | none => refreshPages changed e names
    | some s =>
      if s.loaded then
        let id := ScopeId.page name
        let (s, order, diagnostics, world) := refreshPage e.world id e.global.values changed s
        let (refreshed, others, e) := refreshPages changed ({ e with world }.setScope id s) names
        (order.map (id, ·) ++ refreshed, diagnostics ++ others, e)
      else refreshPages changed e names

def run (e : Engine σ) (id : ScopeId) (script : String) : Except SheetError (Outcome × Engine σ) := do
  let s ← e.scope id
  let (run, world) := CommandRun.run e.world id s.definitions s.values script
  let (plan, resolution, world) :=
    Propagation.propagate world id run.definitions run.values run.invoked run.modified
  let e := { e with world }.setScope id
    { s with definitions := run.definitions, values := resolution.values }
  let outcome := Outcome.of run plan resolution
  match id with
  | .page _ => return (outcome, e)
  | .global =>
    let (refreshed, diagnostics, e) := refreshPages (NameSet.ofNames resolution.order) e e.pages.keys
    return (outcome.refresh refreshed diagnostics, e)

def runNamed (e : Engine σ) (id : ScopeId) (name : String) : Except SheetError (Outcome × Engine σ) := do
  let s ← e.scope id
  match s.commands[name]? with
  | some script => e.run id script
  | none => .error (.definition name (.noCommand id.text))

end Engine

end LiveSheet
