import Mathlib
import LiveSheet.Proofs.Graph.Order
import LiveSheet.Proofs.Variable.Lookup
import LiveSheet.Resolution

/-! What the variables of a pass see of each other. A step of a pass gives a value to its own
variable and leaves all others alone, so a variable reads the final value of what is ordered before
it and the seed of what is ordered after it. The schedule puts a dependency before its reader
unless the edge between them is broken. -/

namespace LiveSheet

namespace Resolution

variable {σ : Type} (scope : ScopeId) (definitions : VariableSet) (seed : NameMap Value)

def valueOf (declared : NameSet) (values : NameMap Value) (world : World σ) (v : Variable) : Value :=
  match v.rule with
  | .literal value => value
  | .expression text => (evaluate declared values text world).1.toOption.getD .null

def answerOf (declared : NameSet) (values : NameMap Value) (world : World σ) (v : Variable) : Except SheetError Value :=
  match v.rule with
  | .literal value => .ok value
  | .expression text => (evaluate declared values text world).1

theorem valueOf_eq (declared : NameSet) (values : NameMap Value) (world : World σ) (v : Variable) :
    valueOf declared values world v = (answerOf declared values world v).toOption.getD .null := by
  unfold valueOf answerOf
  cases v.rule <;> rfl

/-- The state of a pass that has gone through some names. -/
def progress (world : World σ) (names : List String) : Progress σ :=
  names.foldl (Progress.step scope definitions definitions.domain) ⟨world, seed, []⟩

theorem values_ofGraph (world : World σ) (g : Graph) (only : Option NameSet) :
    (ofGraph world scope definitions g seed only).1.values =
      (progress scope definitions seed world (Schedule.ofGraph g only).order).values := rfl

theorem order_ofGraph_subset (namespaces : NameSet) (only : Option NameSet) :
    ∀ n ∈ (Schedule.ofGraph (Graph.build definitions namespaces) only).order, n ∈ definitions.names := by
  intro n hn
  have horders := Schedule.orders_ofGraph (g := Graph.build definitions namespaces)
    Graph.coherent_build only
  have hn := ((horders.mem_order n).1 hn).mem_names Graph.coherent_build
  rwa [Graph.names_build] at hn

theorem mem_order_resolve (world : World σ) (n : String) :
    n ∈ (resolve world scope definitions seed none).1.order ↔ n ∈ definitions.names := by
  have horders := Schedule.orders_ofGraph (g := graph world definitions)
    Graph.coherent_build none
  refine (horders.mem_order n).trans ?_
  rw [Graph.Working, graph, Graph.names_build]

variable {scope definitions seed}

theorem values_step (declared : NameSet) (p : Progress σ) {name : String} {v : Variable}
    (h : definitions.get? name = some v) : (p.step scope definitions declared name).values =
      p.values.insert name (valueOf declared p.values p.world v) := by
  unfold Progress.step valueOf
  rw [h]
  cases hr : v.rule with
  | literal value =>
    simp only [hr]
    rfl
  | expression text =>
    simp only [hr]
    generalize evaluate declared p.values text p.world = answer
    obtain ⟨result, world⟩ := answer
    cases result <;> rfl

theorem values_step_of_ne (declared : NameSet) (p : Progress σ) {name n : String} (h : name ≠ n) :
    (p.step scope definitions declared name).values[n]? = p.values[n]? := by
  cases hv : definitions.get? name with
  | none => simp [Progress.step, hv]
  | some v => rw [values_step declared p hv, NameMap.get?_insert, if_neg h]

theorem values_foldl_of_notMem (declared : NameSet) {names : List String} (p : Progress σ)
    {n : String} (h : n ∉ names) :
    (names.foldl (Progress.step scope definitions declared) p).values[n]? = p.values[n]? := by
  induction names generalizing p with
  | nil => rfl
  | cons a names ih =>
    obtain ⟨ha, hn⟩ := not_or.1 (List.mem_cons.not.1 h)
    rw [List.foldl_cons, ih _ hn, values_step_of_ne declared p (Ne.symm ha)]

theorem values_progress_of_notMem {world : World σ} {names : List String} {n : String} (h : n ∉ names) :
    (progress scope definitions seed world names).values[n]? = seed[n]? :=
  values_foldl_of_notMem _ _ h

theorem progress_append (world : World σ) (names more : List String) :
    progress scope definitions seed world (names ++ more) =
      more.foldl (Progress.step scope definitions definitions.domain)
        (progress scope definitions seed world names) :=
  List.foldl_append

theorem values_progress_of_split {world : World σ} {earlier later : List String} {name : String}
    {v : Variable} (hnodup : (earlier ++ name :: later).Nodup) (hv : definitions.get? name = some v) :
    (progress scope definitions seed world (earlier ++ name :: later)).values[name]? =
      some (valueOf definitions.domain (progress scope definitions seed world earlier).values
        (progress scope definitions seed world earlier).world v) := by
  have hlater : name ∉ later := (List.nodup_cons.1 (List.nodup_append.1 hnodup).2.1).1
  rw [progress_append, List.foldl_cons, values_foldl_of_notMem _ _ hlater, values_step _ _ hv,
    NameMap.get?_insert, if_pos rfl]

theorem values_progress_of_earlier {world : World σ} {earlier later : List String} {d : String}
    (h : d ∉ later) : (progress scope definitions seed world earlier).values[d]? =
      (progress scope definitions seed world (earlier ++ later)).values[d]? := by
  rw [progress_append, values_foldl_of_notMem _ _ h]

end Resolution

namespace Schedule

theorem precedes_split_iff {earlier later : List String} {v d : String}
    (hnodup : (earlier ++ v :: later).Nodup) :
    Precedes (earlier ++ v :: later) d v ↔ d ∈ earlier := by
  obtain ⟨_, hv, hdisjoint⟩ := List.nodup_append.1 hnodup
  rw [List.append_cons, precedes_append_iff (List.nodup_cons.1 hv).1]
  exact precedes_concat_iff fun h => hdisjoint v h v List.mem_cons_self rfl

theorem Orders.mem_earlier_iff {g : Graph} {working : String → Prop} {s : Schedule}
    (h : s.Orders g working) {earlier later : List String} {v d : String}
    (horder : s.order = earlier ++ v :: later) (hread : g.Reads v d) :
    d ∈ earlier ↔ ⟨v, d⟩ ∉ s.brokenEdges := by
  have hv : working v := (h.mem_order v).1 (by simp [horder])
  have hxor := h.settled v d hv hread
  rwa [xor_iff_iff_not, horder, precedes_split_iff (horder ▸ h.nodup)] at hxor

end Schedule

namespace Resolution

variable {σ : Type} (world : World σ) (scope : ScopeId) (definitions : VariableSet)
  (namespaces : NameSet) (seed : NameMap Value) (only : Option NameSet)

/-- At the moment a variable is evaluated, each of its dependencies has the value it has when the
pass is over, or the value of the seed if the edge to it is broken. -/
theorem observed_dependency {earlier later : List String} {v d : String}
    (horder : (ofGraph world scope definitions (Graph.build definitions namespaces) seed only).1.order =
      earlier ++ v :: later)
    (hread : (Graph.build definitions namespaces).Reads v d) :
    let result := (ofGraph world scope definitions (Graph.build definitions namespaces) seed only).1
    let p := progress scope definitions seed world earlier
    (∀ x, definitions.get? v = some x →
      result.values[v]? = some (valueOf definitions.domain p.values p.world x)) ∧
    p.values[d]? = if ⟨v, d⟩ ∈ result.brokenEdges then seed[d]? else result.values[d]? := by
  have hright := Schedule.orders_ofGraph (g := Graph.build definitions namespaces)
    Graph.coherent_build only
  have hnodup := hright.nodup
  have hearlier := hright.mem_earlier_iff horder hread
  change (Schedule.ofGraph _ only).order = _ at horder
  intro result p
  have hvalues : result.values = (progress scope definitions seed world (earlier ++ v :: later)).values :=
    horder ▸ values_ofGraph scope definitions seed world _ only
  rw [hvalues]
  rw [horder] at hnodup
  refine ⟨fun x hx => values_progress_of_split hnodup hx, ?_⟩
  by_cases hbroken : ⟨v, d⟩ ∈ result.brokenEdges
  · rw [if_pos hbroken]
    exact values_progress_of_notMem fun h => hearlier.1 h hbroken
  · rw [if_neg hbroken]
    have hd := hearlier.2 hbroken
    exact values_progress_of_earlier fun h => (List.nodup_append.1 hnodup).2.2 d hd d h rfl

def mutualPair : VariableSet where
  declared := [⟨"x", .expression "y + 1", none, none⟩, ⟨"y", .expression "x + 1", none, none⟩]
  nodup := by decide

theorem observed_dependency_mutualPair :
    let result := (ofGraph (World.start () .none) .global mutualPair (Graph.build mutualPair ∅) ∅ none).1
    let p := progress .global mutualPair ∅ (World.start () .none) []
    result.order = [] ++ "y" :: ["x"] ∧ (Graph.build mutualPair ∅).Reads "y" "x" ∧
    (∀ x, mutualPair.get? "y" = some x →
      result.values["y"]? = some (valueOf mutualPair.domain p.values p.world x)) ∧
    p.values["x"]? = if ⟨"y", "x"⟩ ∈ result.brokenEdges then none else result.values["x"]? := by
  have horder : (Schedule.ofGraph (Graph.build mutualPair ∅) none).order = [] ++ "y" :: ["x"] := by cbv
  have hread : (Graph.build mutualPair ∅).Reads "y" "x" := by
    unfold Graph.Reads
    decide +kernel
  exact ⟨horder, hread, observed_dependency _ _ _ _ _ _ horder hread⟩

end Resolution

end LiveSheet
