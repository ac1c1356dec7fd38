import LiveSheet.Eval
import LiveSheet.Graph.Schedule

/-!
Passes. A pass gives values to variables in scheduled order, starting from the values of a
seed. Literals are copied and expressions evaluated; one that fails gets null and a
diagnostic, and the pass goes on. Across a broken edge a variable reads the seed.
-/

namespace LiveSheet

structure Diagnostic where
  name : String
  message : String
  deriving DecidableEq, Repr

structure Resolution where
  values : NameMap Value
  /-- The variables that got a value, in that order. -/
  order : List String
  brokenEdges : List BrokenEdge
  diagnostics : List Diagnostic

namespace Resolution

variable {σ : Type}

structure Progress (σ : Type) where
  world : World σ
  values : NameMap Value
  diagnostics : List Diagnostic

def evaluate (declared : NameSet) (values : NameMap Value) (text : String) (world : World σ) :
    Except SheetError Value × World σ :=
  let env : Setting σ := ⟨world.integrations, declared⟩
  let (result, m) := StateT.run (ExceptT.run (Eval.evaluate env .expression text)) ⟨world, values, ∅, none⟩
  (result, m.world)

def Progress.settle (p : Progress σ) (scope : ScopeId) (name : String) (v : Value) : Progress σ :=
  { p with world := p.world.report .resolved scope name v, values := p.values.insert name v }

def Progress.step (scope : ScopeId) (definitions : VariableSet) (declared : NameSet) (p : Progress σ)
    (name : String) : Progress σ :=
  match definitions.get? name with
  | none => p
  | some d =>
    match d.rule with
    | .literal v => p.settle scope name v
    | .expression text =>
      let (result, world) := evaluate declared p.values text p.world
      let p := { p with world }
      match result with
      | .ok v => p.settle scope name v
      | .error e =>
        Progress.settle { p with diagnostics := p.diagnostics ++ [⟨name, e.message⟩] } scope name .null

/-- A pass over the variables of a graph, or over some of them and everything they read. -/
def ofGraph (world : World σ) (scope : ScopeId) (definitions : VariableSet) (g : Graph)
    (seed : NameMap Value) (only : Option NameSet) : Resolution × World σ :=
  let plan := Schedule.ofGraph g only
  let p := plan.order.foldl (Progress.step scope definitions definitions.domain) ⟨world, seed, []⟩
  (⟨p.values, plan.order, plan.brokenEdges, p.diagnostics⟩, p.world)

def graph (world : World σ) (definitions : VariableSet) : Graph :=
  Graph.build definitions (NameSet.ofNames world.integrations.namespaces)

def resolve (world : World σ) (scope : ScopeId) (definitions : VariableSet) (seed : NameMap Value)
    (only : Option NameSet) : Resolution × World σ :=
  ofGraph world scope definitions (graph world definitions) seed only

end Resolution

end LiveSheet
