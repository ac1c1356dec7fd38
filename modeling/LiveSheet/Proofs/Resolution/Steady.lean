import LiveSheet.Engine.Reload
import LiveSheet.Proofs.Eval.Alike
import LiveSheet.Proofs.Resolution.Frame

/-! Integrations that answer whatever the host has come to, such as look-up tables. With no others a pass is a function
of the variables, the seed and the integrations: no earlier session shows in it. -/

namespace LiveSheet

variable {σ : Type}

/-- What the operations answer does not depend on the state of the host. -/
def Integration.Steady (i : Integration σ) : Prop :=
  ∀ (name : String) (op : Operation σ), i.operations[name]? = some op →
    ∀ args host host', (op.run args host').1 = (op.run args host).1

theorem Integration.steady_table (name : String) (deferred : Bool) (values : NameMap Value) :
    (table name deferred values : Integration σ).Steady := by
  intro n op hop args host host'
  simp only [table, NameMap.ofEntries, List.foldl_cons, List.foldl_nil, NameMap.get?_insert] at hop
  split at hop
  · cases hop
    rfl
  · split at hop
    · cases hop
      rfl
    · cases hop

namespace IntegrationSet

def Steady (set : IntegrationSet σ) : Prop := ∀ owner i, set.get? owner = some i → i.Steady

theorem steady_empty : (empty : IntegrationSet σ).Steady := by
  intro owner i h
  cases h

theorem Steady.register {set : IntegrationSet σ} (h : set.Steady) {i : Integration σ} (hi : i.Steady) :
    (set.register i).Steady := by
  intro owner j hj
  rw [get?, IntegrationSet.register, NameMap.get?_insert] at hj
  split at hj
  · exact Option.some.inj hj ▸ hi
  · exact h owner j hj

theorem Steady.registerAll {r : Await.Registry σ} (h : r.integrations.Steady) {integrations : List (Integration σ)}
    (hall : ∀ i ∈ integrations, i.Steady) : (integrations.foldl Await.Registry.register r).integrations.Steady := by
  induction integrations generalizing r with
  | nil => exact h
  | cons i integrations ih =>
    obtain ⟨hi, hall⟩ := List.forall_mem_cons.1 hall
    exact ih (h.register hi) hall

end IntegrationSet

theorem Engine.steady_ofSheet {host : σ} {store : Store} {sheet : Sheet} {e : Engine σ}
    (h : ofSheet host store sheet = .ok e) : e.world.integrations.Steady := by
  obtain ⟨definitions, _, h⟩ := Parser.bind_eq_ok.1 h
  obtain ⟨pages, _, h⟩ := Parser.bind_eq_ok.1 h
  cases h
  refine IntegrationSet.steady_empty.registerAll fun i hi => ?_
  obtain ⟨table, _, rfl⟩ := List.mem_map.1 hi
  exact Integration.steady_table _ _ _

theorem Eval.matching_of_steady {set : IntegrationSet σ} (h : set.Steady) :
    Matching set fun w w' : World σ => w'.integrations = w.integrations where
  sequence {w w'} hw mode text := by
    have hset : w'.registry.integrations = w.registry.integrations := hw
    refine ⟨?_, ?_⟩
    · change (w'.registry.sequence mode text).1 = (w.registry.sequence mode text).1
      rw [Await.Registry.sequence_fst, Await.Registry.sequence_fst, hset]
    · change (w'.registry.sequence mode text).2.integrations = (w.registry.sequence mode text).2.integrations
      rw [Await.Registry.integrations_sequence, Await.Registry.integrations_sequence, hset]
  perform {w w'} hw {owner i name op} hi hop args := by
    refine ⟨?_, hw⟩
    simp only [World.perform, h owner i hi name op hop args w.host w'.host]

namespace Resolution

theorem evaluate_fst_of_steady {world world' : World σ} (hsteady : world.integrations.Steady)
    (h : world'.integrations = world.integrations) (declared : NameSet) (values : NameMap Value) (text : String) :
    (evaluate declared values text world').1 = (evaluate declared values text world).1 := by
  have halike : Eval.Alike (fun w w' : World σ => w'.integrations = w.integrations) declared (fun _ => True)
      ⟨world, values, ∅, none⟩ ⟨world', values, ∅, none⟩ := ⟨h, rfl, fun _ _ => rfl, rfl, rfl⟩
  have heven := Eval.evaluate_even (Eval.matching_of_steady hsteady) halike .expression text (fun _ _ => trivial)
    fun _ _ _ _ => ⟨fun _ _ => trivial, .inl fun _ => trivial⟩
  rw [evaluate, h]
  exact heven.1

/-- Passes that have come equally far in worlds with the same steady integrations. -/
structure Progress.Level (p p' : Progress σ) : Prop where
  steady : p.world.integrations.Steady
  integrations : p'.world.integrations = p.world.integrations
  values : p'.values = p.values
  diagnostics : p'.diagnostics = p.diagnostics

theorem Progress.Level.step {p p' : Progress σ} (h : Level p p') (scope : ScopeId) (definitions : VariableSet)
    (declared : NameSet) (name : String) :
    Level (p.step scope definitions declared name) (p'.step scope definitions declared name) := by
  unfold Progress.step
  cases definitions.get? name with
  | none => exact h
  | some v =>
    cases hr : v.rule with
    | literal value =>
      simp only [hr]
      exact ⟨h.steady, h.integrations, congrArg (·.insert name value) h.values, h.diagnostics⟩
    | expression text =>
      have hanswer := evaluate_fst_of_steady h.steady h.integrations declared p.values text
      have hworld := (undisturbed_evaluate declared p.values text p.world).integrations
      have hworld' := (undisturbed_evaluate declared p.values text p'.world).integrations
      simp only [hr, h.values]
      generalize evaluate declared p.values text p.world = answer at hanswer hworld
      generalize evaluate declared p.values text p'.world = answer' at hanswer hworld'
      obtain ⟨result, world⟩ := answer
      obtain ⟨result', world'⟩ := answer'
      obtain rfl : result' = result := hanswer
      have hsteady : world.integrations.Steady := hworld.symm ▸ h.steady
      have hsame : world'.integrations = world.integrations := hworld'.trans (h.integrations.trans hworld.symm)
      cases result' with
      | ok value => exact ⟨hsteady, hsame, rfl, h.diagnostics⟩
      | error e => exact ⟨hsteady, hsame, rfl, congrArg (· ++ [(⟨name, e.message⟩ : Diagnostic)]) h.diagnostics⟩

theorem resolve_fst_of_steady {world world' : World σ} (hsteady : world.integrations.Steady)
    (h : world'.integrations = world.integrations) (scope : ScopeId) (definitions : VariableSet) (seed : NameMap Value)
    (only : Option NameSet) :
    (resolve world' scope definitions seed only).1 = (resolve world scope definitions seed only).1 := by
  have hgraph : graph world' definitions = graph world definitions := by
    rw [graph, h, graph]
  have hpass : ∀ (names : List String) (p p' : Progress σ), Progress.Level p p' →
      Progress.Level (names.foldl (Progress.step scope definitions definitions.domain) p)
        (names.foldl (Progress.step scope definitions definitions.domain) p') := by
    intro names
    induction names with
    | nil => exact fun _ _ h => h
    | cons name names ih => exact fun p p' h => ih _ _ (h.step scope definitions definitions.domain name)
  have hlevel := hpass (Schedule.ofGraph (graph world definitions) only).order ⟨world, seed, []⟩ ⟨world', seed, []⟩
    ⟨hsteady, h, rfl, rfl⟩
  rw [resolve, resolve, hgraph, ofGraph, ofGraph]
  simp only [hlevel.values, hlevel.diagnostics]

end Resolution

end LiveSheet
