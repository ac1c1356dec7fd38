import LiveSheet.Proofs.Resolution.Account
import LiveSheet.Proofs.Resolution.Equation

/-! The order of declaration. It decides in which order a pass goes through the variables, but the equations of the
variables do not know it. So where these have one solution, the values and the diagnostics of a pass are the same for
every order of the same declarations. -/

namespace LiveSheet

namespace VariableSet

variable {definitions definitions' : VariableSet} (h : definitions'.declared.Perm definitions.declared)
include h

theorem get?_of_perm (name : String) : definitions'.get? name = definitions.get? name := by
  have hiff : ∀ (set : VariableSet) v, set.get? name = some v ↔ v ∈ set.declared ∧ v.name = name := by
    intro set v
    constructor
    · exact fun hv => ⟨mem_of_get? hv, name_of_get? hv⟩
    · rintro ⟨hv, rfl⟩
      exact get?_of_mem hv
  ext v
  rw [hiff, hiff, h.mem_iff]

theorem mem_names_of_perm (name : String) : name ∈ definitions'.names ↔ name ∈ definitions.names :=
  (h.map Variable.name).mem_iff

theorem domain_of_perm : definitions'.domain = definitions.domain := by
  refine Std.ExtTreeSet.ext_mem fun n => ?_
  rw [domain_eq, domain_eq, NameSet.mem_ofNames, NameSet.mem_ofNames, mem_names_of_perm h]

theorem reads_of_perm {namespaces : NameSet} {a b : String} :
    (Graph.build definitions' namespaces).Reads a b ↔ (Graph.build definitions namespaces).Reads a b := by
  rw [Graph.reads_build, Graph.reads_build, get?_of_perm h, domain_of_perm h]

theorem acyclic_of_perm {namespaces : NameSet} (hacyclic : (Graph.build definitions namespaces).Acyclic) :
    (Graph.build definitions' namespaces).Acyclic := fun n hc =>
  hacyclic n (Relation.TransGen.mono (fun _ _ hread => (reads_of_perm h).1 hread) _ _ hc)

end VariableSet

namespace Resolution

variable {σ : Type} {definitions definitions' : VariableSet} {seed : NameMap Value} {world : World σ}

theorem Local.of_perm (hlocal : Local world definitions) (h : definitions'.declared.Perm definitions.declared) :
    Local world definitions' := by
  intro n v text hv htext A B hreads hfree
  rw [VariableSet.get?_of_perm h] at hv
  rw [VariableSet.domain_of_perm h]
  exact hlocal n v text hv htext A B (fun d hd => hreads d ((VariableSet.reads_of_perm h).2 hd))
    fun m hm => hfree m (mt (VariableSet.mem_names_of_perm h m).1 hm)

/-- The diagnostics of a pass are those of its values: an expression that fails in its turn fails where all have
their values, and in the same way. -/
theorem diagnostics_ofGraph {world' : World σ} (hlocal : Local world definitions) (hworld : NoIntegrations world)
    (hworld' : NoIntegrations world') (scope : ScopeId) (hacyclic : (Graph.build definitions ∅).Acyclic)
    (namespaces : NameSet) (only : Option NameSet) :
    let r := (ofGraph world' scope definitions (Graph.build definitions namespaces) seed only).1
    r.diagnostics = r.order.filterMap (diagnostic? definitions r.values world) := by
  intro r
  have hnodup : r.order.Nodup :=
    (Schedule.orders_ofGraph Graph.coherent_build only).nodup
  have hdeclared : ∀ n ∈ r.order, n ∈ definitions.names := order_ofGraph_subset definitions namespaces only
  refine (diagnostics_progress scope seed world' hnodup hdeclared).trans (List.filterMap_congr fun n hn => ?_)
  obtain ⟨v, hv⟩ := VariableSet.mem_names_iff.1 (hdeclared n hn)
  obtain ⟨earlier, later, horder⟩ := List.append_of_mem hn
  have hanswer := answerOf_of_split hlocal hworld hworld' scope hacyclic seed only horder hv
  rw [horder] at hnodup ⊢
  rw [turn_split (notMem_of_split hnodup)]
  simp only [diagnostic?, hv, Option.map_some, hanswer]
  rfl

section

variable {world₁ world₂ : World σ} (h : definitions'.declared.Perm definitions.declared)
include h

theorem order_resolve_of_perm (scope : ScopeId) (seed : NameMap Value) :
    (resolve world₂ scope definitions' seed none).1.order.Perm
      (resolve world₁ scope definitions seed none).1.order := by
  have horders := Schedule.orders_ofGraph (g := graph world₁ definitions) Graph.coherent_build none
  have horders' := Schedule.orders_ofGraph (g := graph world₂ definitions') Graph.coherent_build none
  refine (List.perm_ext_iff_of_nodup horders'.nodup horders.nodup).2 fun n => ?_
  have hmem := mem_order_resolve scope definitions seed world₁ n
  have hmem' := mem_order_resolve scope definitions' seed world₂ n
  exact hmem'.trans ((VariableSet.mem_names_of_perm h n).trans hmem.symm)

theorem values_resolve_of_perm (hlocal : Local world definitions) (hacyclic : (Graph.build definitions ∅).Acyclic)
    (hworld : NoIntegrations world) (h₁ : NoIntegrations world₁) (h₂ : NoIntegrations world₂) (scope : ScopeId)
    (seed : NameMap Value) : (resolve world₂ scope definitions' seed none).1.values =
      (resolve world₁ scope definitions seed none).1.values := by
  obtain ⟨hsolved, hfree⟩ := solved_resolve hlocal hworld h₁ scope hacyclic seed
  obtain ⟨hsolved', hfree'⟩ :=
    solved_resolve (hlocal.of_perm h) hworld h₂ scope (VariableSet.acyclic_of_perm h hacyclic) seed
  refine Std.ExtTreeMap.ext_getElem? fun n => ?_
  refine eq_of_solved hlocal hacyclic (P := fun _ => True) (fun _ _ _ _ => trivial) (fun m hm => ?_) (fun m _ => ?_)
    n trivial
  · rw [hfree m hm, hfree' m (mt (VariableSet.mem_names_of_perm h m).1 hm)]
  · refine .inl ⟨fun v hv => ?_, hsolved m⟩
    rw [← VariableSet.domain_of_perm h]
    exact hsolved' m v ((VariableSet.get?_of_perm h m).trans hv)

/-- In which order the same variables are declared does not matter to a full pass: its values are the same, and so are
its diagnostics but for their order. -/
theorem resolve_of_perm (hlocal : Local world definitions) (hacyclic : (Graph.build definitions ∅).Acyclic)
    (hworld : NoIntegrations world) (h₁ : NoIntegrations world₁) (h₂ : NoIntegrations world₂) (scope : ScopeId)
    (seed : NameMap Value) :
    let r := (resolve world₁ scope definitions seed none).1
    let r' := (resolve world₂ scope definitions' seed none).1
    r'.values = r.values ∧ r'.diagnostics.Perm r.diagnostics := by
  intro r r'
  have hvalues : r'.values = r.values := values_resolve_of_perm h hlocal hacyclic hworld h₁ h₂ scope seed
  have horder : r'.order.Perm r.order := order_resolve_of_perm h scope seed
  have hdiagnostics : r.diagnostics = r.order.filterMap (diagnostic? definitions r.values world) :=
    diagnostics_ofGraph hlocal hworld h₁ scope hacyclic _ none
  have hdiagnostics' : r'.diagnostics = r'.order.filterMap (diagnostic? definitions' r'.values world) :=
    diagnostics_ofGraph (hlocal.of_perm h) hworld h₂ scope (VariableSet.acyclic_of_perm h hacyclic) _ none
  have hsame : diagnostic? definitions' r'.values world = diagnostic? definitions r.values world := by
    funext n
    rw [diagnostic?, diagnostic?, VariableSet.get?_of_perm h, VariableSet.domain_of_perm h, hvalues]
  refine ⟨hvalues, ?_⟩
  rw [hdiagnostics, hdiagnostics', hsame]
  exact horder.filterMap _

end

/-- A variable, its double, and a property that a number does not have. -/
def tally : VariableSet where
  declared := [⟨"base", .literal (.number 2), none, none⟩, ⟨"twice", .expression "base + base", none, none⟩,
    ⟨"size", .expression "twice.size", none, none⟩]
  nodup := by decide

def tallyBackwards : VariableSet where
  declared := tally.declared.reverse
  nodup := by decide

theorem build_tally : Graph.build tally ∅ = ⟨["base", "twice", "size"],
    NameMap.ofEntries [("base", ∅), ("twice", NameSet.ofNames ["base"]), ("size", NameSet.ofNames ["twice"])],
    NameMap.ofEntries [("base", NameSet.ofNames ["twice"]), ("twice", NameSet.ofNames ["size"]), ("size", ∅)], ∅⟩ := by
  decide +kernel

theorem local_tally : Local (World.start () .none) tally := by
  have hbase : (Graph.build tally ∅).Reads "twice" "base" := by
    rw [build_tally, Graph.Reads]
    decide
  have htwice : (Graph.build tally ∅).Reads "size" "twice" := by
    rw [build_tally, Graph.Reads]
    decide
  refine local_of_parse rfl fun v hv text htext => ?_
  simp only [tally, List.mem_cons, List.not_mem_nil, or_false] at hv
  rcases hv with rfl | rfl | rfl
  · cases htext
  · cases htext
    refine ⟨[.expr (.binary .add (.identifier "base") (.identifier "base"))], fun lookup => by cbv, by cbv, ?_, ?_⟩
    · simp [Program.LiteralKeys, Statement.value, Expr.Everywhere, Expr.LiteralKey]
    · intro m hm
      rcases List.mem_pair.1 hm with rfl | rfl <;> exact .inl hbase
  · cases htext
    refine ⟨[.expr (.member (.identifier "twice") "size")], fun lookup => by cbv, by cbv, ?_, ?_⟩
    · simp [Program.LiteralKeys, Statement.value, Expr.Everywhere, Expr.LiteralKey]
    · intro m hm
      obtain rfl := List.mem_singleton.1 hm
      exact .inl htwice

theorem resolve_of_perm_tally :
    let world := World.start () .none
    tallyBackwards.declared.Perm tally.declared ∧ Local world tally ∧ (Graph.build tally ∅).Acyclic ∧
      NoIntegrations world ∧
    let r := (resolve world .global tally ∅ none).1
    let r' := (resolve world .global tallyBackwards ∅ none).1
    r'.values = r.values ∧ r'.diagnostics.Perm r.diagnostics := by
  have hperm : tallyBackwards.declared.Perm tally.declared := List.reverse_perm _
  have hacyclic : (Graph.build tally ∅).Acyclic := by
    refine Graph.acyclic_of_schedule ?_
    rw [build_tally]
    cbv
  have hworld : NoIntegrations (World.start () .none) := rfl
  exact ⟨hperm, local_tally, hacyclic, hworld,
    resolve_of_perm hperm local_tally hacyclic hworld hworld hworld .global ∅⟩

end Resolution

end LiveSheet
