import LiveSheet.Proofs.Eval.Alike
import LiveSheet.Proofs.Resolution.Pass

/-! The equations of variables. Each variable has one: its value is what its rule gives where the
others have theirs. Where expressions see only what their graph says and no variable reads itself,
a pass solves the equations of everything it orders, and the equations have one solution. -/

namespace LiveSheet.Resolution

variable {σ : Type} {definitions : VariableSet} {seed : NameMap Value}

/-- The answer to an expression is the same wherever its dependencies and the names that are not
declared have the same values. -/
def Local (world : World σ) (definitions : VariableSet) : Prop :=
  ∀ n v text, definitions.get? n = some v → v.expression? = some text → ∀ A B : NameMap Value,
    (∀ d, (Graph.build definitions ∅).Reads n d → A[d]? = B[d]?) →
    (∀ m, m ∉ definitions.names → A[m]? = B[m]?) →
    (evaluate definitions.domain A text world).1 = (evaluate definitions.domain B text world).1

/-- The equation of a variable. -/
def Solved (world : World σ) (definitions : VariableSet) (A : NameMap Value) (n : String) : Prop :=
  ∀ v, definitions.get? n = some v → A[n]? = some (valueOf definitions.domain A world v)

theorem local_of_parse {world : World σ} (hworld : NoIntegrations world)
    (h : ∀ v ∈ definitions.declared, ∀ text, v.expression? = some text → ∃ program,
      (∀ lookup, Placeholder.expand lookup .source text = .ok text) ∧ Program.parse text = .ok program ∧
        program.LiteralKeys ∧ ∀ m ∈ program.reads, (Graph.build definitions ∅).Reads v.name m ∨ m ∉ definitions.names) :
    Local world definitions := by
  intro n v text hv htext A B hreads hfree
  have hname : v.name = n := VariableSet.name_of_get? hv
  obtain ⟨program, hexpand, hparse, hkeys, hmentions⟩ := h v (VariableSet.mem_of_get? hv) text htext
  refine congrArg Prod.fst (evaluate_congr_of_parse hworld.deferredCalls_eq_nil hexpand hparse hkeys fun m hm => ?_)
  rcases hmentions m hm with hread | hundeclared
  · exact hreads m (hname ▸ hread)
  · exact hfree m hundeclared

theorem answerOf_eq_of_noIntegrations {world world' : World σ} (h : NoIntegrations world)
    (h' : NoIntegrations world') (declared : NameSet) (A : NameMap Value) (v : Variable) :
    answerOf declared A world v = answerOf declared A world' v := by
  unfold answerOf
  cases v.rule with
  | literal value => rfl
  | expression text =>
    obtain ⟨r, hr⟩ := exists_evaluate_eq (σ := σ) declared A text
    simp only [(hr world h).1, (hr world' h').1]

theorem Local.answerOf_eq {world : World σ} (hlocal : Local world definitions) {n : String}
    {v : Variable} (hv : definitions.get? n = some v) {A B : NameMap Value}
    (hreads : ∀ d, (Graph.build definitions ∅).Reads n d → A[d]? = B[d]?)
    (hfree : ∀ m, m ∉ definitions.names → A[m]? = B[m]?) :
    answerOf definitions.domain A world v = answerOf definitions.domain B world v := by
  unfold answerOf
  cases hr : v.rule with
  | literal value => rfl
  | expression text =>
    have ht : v.expression? = some text := by rw [Variable.expression?, hr]
    exact hlocal n v text hv ht A B hreads hfree

theorem Local.valueOf_eq {world : World σ} (hlocal : Local world definitions) {n : String}
    {v : Variable} (hv : definitions.get? n = some v) {A B : NameMap Value}
    (hreads : ∀ d, (Graph.build definitions ∅).Reads n d → A[d]? = B[d]?)
    (hfree : ∀ m, m ∉ definitions.names → A[m]? = B[m]?) :
    valueOf definitions.domain A world v = valueOf definitions.domain B world v := by
  rw [Resolution.valueOf_eq, Resolution.valueOf_eq, hlocal.answerOf_eq hv hreads hfree]

theorem Solved.congr {world : World σ} (hlocal : Local world definitions) {n : String}
    {A B : NameMap Value} (h : Solved world definitions A n) (hn : A[n]? = B[n]?)
    (hreads : ∀ d, (Graph.build definitions ∅).Reads n d → A[d]? = B[d]?)
    (hfree : ∀ m, m ∉ definitions.names → A[m]? = B[m]?) : Solved world definitions B n := by
  intro v hv
  rw [← hn, h v hv, hlocal.valueOf_eq hv hreads hfree]

theorem noIntegrations_progress (scope : ScopeId) {world : World σ} (h : NoIntegrations world)
    (names : List String) : NoIntegrations (progress scope definitions seed world names).world := by
  unfold progress
  suffices hp : ∀ p : Progress σ, NoIntegrations p.world →
      NoIntegrations (names.foldl (Progress.step scope definitions definitions.domain) p).world from
    hp _ h
  intro p hp
  induction names generalizing p with
  | nil => exact hp
  | cons name names ih =>
    refine ih _ ?_
    unfold Progress.step
    cases definitions.get? name with
    | none => exact hp
    | some v =>
      cases hr : v.rule with
      | literal value =>
        simp only [hr]
        exact hp.report _ _ _ _
      | expression text =>
        obtain ⟨_, hanswer⟩ := exists_evaluate_eq (σ := σ) definitions.domain p.values text
        have hworld := (hanswer p.world hp).2
        simp only [hr]
        generalize evaluate definitions.domain p.values text p.world = answer at hworld
        obtain ⟨_ | _, _⟩ := answer
        · exact hworld.report _ _ _ _
        · exact hworld.report _ _ _ _

/-- Where no variable reads itself, each one is answered in its turn as it would be where all have their values: what
it reads has been through, and the rest does not matter to it. -/
theorem answerOf_of_split {world world' : World σ} (hlocal : Local world definitions)
    (hworld : NoIntegrations world) (hworld' : NoIntegrations world') (scope : ScopeId)
    (hacyclic : (Graph.build definitions ∅).Acyclic) {namespaces : NameSet} (seed : NameMap Value)
    (only : Option NameSet) {earlier later : List String} {n : String} {v : Variable}
    (horder : (Schedule.ofGraph (Graph.build definitions namespaces) only).order = earlier ++ n :: later)
    (hv : definitions.get? n = some v) :
    let p := progress scope definitions seed world' earlier
    answerOf definitions.domain p.values p.world v = answerOf definitions.domain
      (ofGraph world' scope definitions (Graph.build definitions namespaces) seed only).1.values world v := by
  have horders := Schedule.orders_ofGraph (g := Graph.build definitions namespaces)
    Graph.coherent_build only
  have hdeclared := order_ofGraph_subset definitions namespaces only
  have hnodup := horders.nodup
  have hearlier : ∀ d, (Graph.build definitions ∅).Reads n d → d ∈ earlier := by
    intro d hd
    have hn : n ∈ (Schedule.ofGraph (Graph.build definitions namespaces) only).order := by simp [horder]
    have hprecedes := horders.precedes hacyclic.of_build ((horders.mem_order n).1 hn) ((Graph.reads_build_iff _).1 hd)
    rw [horder] at hprecedes hnodup
    exact (Schedule.precedes_split_iff hnodup).1 hprecedes
  intro p
  rw [answerOf_eq_of_noIntegrations (noIntegrations_progress scope hworld' earlier) hworld, values_ofGraph]
  rw [horder] at hdeclared hnodup ⊢
  refine hlocal.answerOf_eq hv (fun d hd => ?_) fun m hm => ?_
  · have hd := hearlier d hd
    exact values_progress_of_earlier fun h => (List.nodup_append.1 hnodup).2.2 d hd d h rfl
  · have hm := mt (hdeclared m) hm
    rw [values_progress_of_notMem hm]
    exact values_progress_of_notMem fun h => hm (List.mem_append_left _ h)

theorem solved_ofGraph {world world' : World σ} (hlocal : Local world definitions)
    (hworld : NoIntegrations world) (hworld' : NoIntegrations world') (scope : ScopeId)
    (hacyclic : (Graph.build definitions ∅).Acyclic) {namespaces : NameSet}
    (only : Option NameSet) {n : String}
    (hn : n ∈ (Schedule.ofGraph (Graph.build definitions namespaces) only).order) :
    Solved world definitions
      (ofGraph world' scope definitions (Graph.build definitions namespaces) seed only).1.values n := by
  have horders := Schedule.orders_ofGraph (g := Graph.build definitions namespaces)
    Graph.coherent_build only
  have hnodup := horders.nodup
  intro v hv
  obtain ⟨earlier, later, horder⟩ := List.append_of_mem hn
  have hanswer := answerOf_of_split hlocal hworld hworld' scope hacyclic seed only horder hv
  rw [valueOf_eq, ← hanswer, ← valueOf_eq, values_ofGraph]
  rw [horder] at hnodup ⊢
  exact values_progress_of_split hnodup hv

theorem solved_resolve {world world' : World σ} (hlocal : Local world definitions)
    (hworld : NoIntegrations world) (hworld' : NoIntegrations world') (scope : ScopeId)
    (hacyclic : (Graph.build definitions ∅).Acyclic) (seed : NameMap Value) :
    (∀ n, Solved world definitions (resolve world' scope definitions seed none).1.values n) ∧
    ∀ n, n ∉ definitions.names → (resolve world' scope definitions seed none).1.values[n]? = seed[n]? := by
  have hmem := mem_order_resolve scope definitions seed world'
  constructor
  · intro n v hv
    have hn := (hmem n).2 (VariableSet.mem_names_iff.2 ⟨v, hv⟩)
    exact solved_ofGraph hlocal hworld hworld' scope hacyclic none hn v hv
  · intro n hn
    exact values_progress_of_notMem (mt (hmem n).1 hn)

/-- Over a part of the variables that reads nothing outside, two maps agree if they agree on the
names that are not declared and each variable has its equation solved by both, or the same value. -/
theorem eq_of_solved {world : World σ} (hlocal : Local world definitions)
    (hacyclic : (Graph.build definitions ∅).Acyclic) {P : String → Prop}
    (hP : ∀ a b, P a → (Graph.build definitions ∅).Reads a b → P b) {A B : NameMap Value}
    (hfree : ∀ m, m ∉ definitions.names → A[m]? = B[m]?)
    (h : ∀ n, P n → (Solved world definitions A n ∧ Solved world definitions B n) ∨ A[n]? = B[n]?)
    (n : String) : P n → A[n]? = B[n]? := by
  refine hacyclic.induct (p := fun n => P n → A[n]? = B[n]?) (fun n ih hn => ?_) n
  rcases h n hn with ⟨hA, hB⟩ | heq
  · cases hv : definitions.get? n with
    | some v =>
      rw [hA v hv, hB v hv, hlocal.valueOf_eq hv (fun d hd => ih d hd (hP n d hn hd)) hfree]
    | none =>
      refine hfree n fun hmem => ?_
      obtain ⟨v, hv'⟩ := VariableSet.mem_names_iff.1 hmem
      simp [hv] at hv'
  · exact heq

end LiveSheet.Resolution
