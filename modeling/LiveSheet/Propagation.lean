import LiveSheet.Resolution

/-!
What has to be evaluated again after a script: everything that reads a variable it wrote to
or an integration it invoked, directly or not.
-/

namespace LiveSheet

structure Propagation where
  /-- The variables written to, and those that read an integration. -/
  affected : NameSet
  /-- The affected variables and everything that reads them. -/
  recompute : NameSet

namespace Propagation

variable {σ : Type}

def plan (g : Graph) (invoked modified : NameSet) : Propagation :=
  let affected := NameSet.ofNames ((g.referencing invoked).names ++ modified.names.filter g.contains)
  ⟨affected, g.reverseClosure affected⟩

/-- The variables that read one of some names of an enclosing scope. -/
def readersOf (definitions : VariableSet) (names : NameSet) : NameSet :=
  let reads := fun text => !(References.scan text names ∅).reads.isEmpty
  NameSet.ofNames ((definitions.declared.filter fun v =>
    !names.contains v.name && v.expression?.any reads).map Variable.name)

/-- Plans and makes the pass that follows a script. With nothing to evaluate all values stay. -/
def propagate (world : World σ) (scope : ScopeId) (definitions : VariableSet) (values : NameMap Value)
    (invoked modified : NameSet) : Propagation × Resolution × World σ :=
  let g := Resolution.graph world definitions
  let p := plan g invoked modified
  if p.recompute.isEmpty then (p, ⟨values, [], [], []⟩, world)
  else (p, Resolution.ofGraph world scope definitions g values (some p.recompute))

end Propagation

end LiveSheet
