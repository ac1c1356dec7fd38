import LiveSheet.Eval

/-!
Commands: scripts that run once in a scope and can write to its variables. What was written
before a failure stays written.
-/

namespace LiveSheet

structure CommandRun where
  outcome : Except SheetError Value
  modified : NameSet
  invoked : NameSet
  definitions : VariableSet
  values : NameMap Value

namespace CommandRun

variable {σ : Type}

def run (world : World σ) (scope : ScopeId) (definitions : VariableSet) (values : NameMap Value)
    (script : String) : CommandRun × World σ :=
  let (invoked, world) := world.invoked script
  let env : Setting σ := ⟨world.integrations, NameSet.ofNames (definitions.names ++ values.keys)⟩
  let (outcome, m) := StateT.run (ExceptT.run (Eval.evaluate env .command script))
    ⟨world, values, ∅, some ⟨scope, definitions, ∅⟩⟩
  let session := m.session.getD ⟨scope, definitions, ∅⟩
  (⟨outcome, session.modified, invoked, session.definitions, m.values⟩, m.world)

end CommandRun

end LiveSheet
