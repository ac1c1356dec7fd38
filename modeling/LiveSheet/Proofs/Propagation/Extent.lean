import LiveSheet.Proofs.Eval.Isolated
import LiveSheet.Proofs.Resolution.Account

/-! How far the pass after a script goes. It is planned for the affected variables and their readers, and it evaluates
these together with everything they read, affected or not. What else is declared might as well be a literal: its
expression is not evaluated. -/

namespace LiveSheet
open Relation (ReflTransGen)

namespace Traversal

variable {next next' : String → List String} {working : String → Prop}

end Traversal

namespace Schedule

end Schedule

namespace VariableSet

variable (set : VariableSet) (names : List String)

end VariableSet

namespace Graph

variable {definitions : VariableSet} {namespaces : NameSet} {names : List String}

end Graph

namespace Resolution

variable {σ : Type} {scope : ScopeId} {definitions : VariableSet}

end Resolution

namespace Propagation

variable {σ : Type} (world : World σ) (scope : ScopeId) (definitions : VariableSet) (values : NameMap Value)
  (invoked modified : NameSet)

/-- The expression of a variable refers to one of some integrations. -/
def Refers (definitions : VariableSet) (namespaces invoked : NameSet) (n : String) : Prop :=
  ∃ v text, definitions.get? n = some v ∧ v.expression? = some text ∧
    ∃ owner ∈ (References.scan text definitions.domain namespaces).namespaces, owner ∈ invoked

variable {definitions invoked modified}

theorem mem_affected {namespaces : NameSet} {n : String} :
    n ∈ (plan (Graph.build definitions namespaces) invoked modified).affected ↔
      n ∈ definitions.names ∧ (n ∈ modified ∨ Refers definitions namespaces invoked n) := by
  simp only [plan, NameSet.mem_ofNames, List.mem_append, NameSet.mem_names, Graph.mem_referencing_build, List.mem_filter,
    Graph.contains, Std.ExtTreeMap.contains_iff_mem, Graph.coherent_build.mem_forward, Graph.names_build]
  constructor
  · rintro (⟨v, hv⟩ | ⟨hn, hdeclared⟩)
    · exact ⟨VariableSet.mem_names_iff.2 ⟨v, hv.choose_spec.1⟩, .inr ⟨v, hv⟩⟩
    · exact ⟨hdeclared, .inl hn⟩
  · rintro ⟨hdeclared, hn | hrefers⟩
    · exact .inr ⟨hn, hdeclared⟩
    · exact .inl hrefers

theorem mem_recompute {namespaces : NameSet} {n : String} :
    n ∈ (plan (Graph.build definitions namespaces) invoked modified).recompute ↔
      ∃ m ∈ (plan (Graph.build definitions namespaces) invoked modified).affected,
        ReflTransGen (Graph.build definitions namespaces).Reads n m := by
  refine (Graph.mem_reverseClosure Graph.coherent_build).trans (exists_congr fun m => ?_)
  refine and_congr_right fun hm => and_iff_right ?_
  rw [Graph.names_build]
  exact (mem_affected.1 hm).1

theorem mem_names_of_mem_recompute {namespaces : NameSet} {n : String}
    (hn : n ∈ (plan (Graph.build definitions namespaces) invoked modified).recompute) : n ∈ definitions.names := by
  obtain ⟨m, hm, hchain⟩ := mem_recompute.1 hn
  rcases hchain.cases_head with rfl | ⟨b, hread, _⟩
  · exact (mem_affected.1 hm).1
  · have hnode := Graph.coherent_build.source_mem hread
    rwa [Graph.names_build] at hnode

/-- How far the pass that follows a script goes. -/
structure Extent (world : World σ) (scope : ScopeId) (definitions : VariableSet) (values : NameMap Value)
    (invoked modified : NameSet) (p : Propagation) (r : Resolution) (world' : World σ) : Prop where
  mem_affected : ∀ n, n ∈ p.affected ↔ n ∈ definitions.names ∧
    (n ∈ modified ∨ Refers definitions (NameSet.ofNames world.integrations.namespaces) invoked n)
  mem_recompute : ∀ n, n ∈ p.recompute ↔
    ∃ m ∈ p.affected, ReflTransGen (Resolution.graph world definitions).Reads n m
  /-- The pass goes through what has to be evaluated again and all that this reads. -/
  mem_order : ∀ n, n ∈ r.order ↔ ∃ m ∈ p.recompute, ReflTransGen (Resolution.graph world definitions).Reads m n
  nodup : r.order.Nodup
  kept : ∀ n, n ∉ r.order → r.values[n]? = values[n]?
  /-- Each evaluation is reported, so there is one of each variable in the order. -/
  events : world'.events =
    r.order.reverse.map (fun n => ⟨.resolved, scope, n, r.values[n]?.getD .null⟩) ++ world.events

variable (definitions invoked modified)

theorem extent :
    let answer := propagate world scope definitions values invoked modified
    Extent world scope definitions values invoked modified answer.1 answer.2.1 answer.2.2 := by
  rw [propagate_eq_ofGraph]
  intro answer
  have horders := Schedule.orders_ofGraph (g := Resolution.graph world definitions)
    Graph.coherent_build (some answer.1.recompute)
  refine ⟨fun n => mem_affected, fun n => mem_recompute, fun n => (horders.mem_order n).trans ?_, horders.nodup, ?_, ?_⟩
  · refine exists_congr fun m => and_congr_right fun hm => and_iff_right ?_
    rw [Resolution.graph, Graph.names_build]
    exact mem_names_of_mem_recompute hm
  · exact (Resolution.settled_ofGraph scope definitions world _ values _).kept
  · exact Resolution.events_foldl _ horders.nodup (Resolution.order_ofGraph_subset definitions _ _) _

end Propagation

end LiveSheet
