import LiveSheet.Propagation
import LiveSheet.Proofs.Command.Writes
import LiveSheet.Proofs.Resolution.Pass

/-! What passes and commands leave behind. What a pass orders and what a command writes has a value, and the host is
told of this value last. Everything else of the values and of what the host was told is as it was. -/

namespace LiveSheet

/-- The value that the host was last told a variable got. The latest event is the first. -/
def lastResolved? (events : List Event) (scope : ScopeId) (name : String) : Option Value :=
  (events.find? fun e => e.kind = .resolved ∧ e.scope = scope ∧ e.name = name).map Event.value

section

variable (events : List Event) (scope id : ScopeId) (name n : String) (v : Value)

theorem lastResolved?_resolved : lastResolved? (⟨.resolved, scope, name, v⟩ :: events) id n =
    if scope = id ∧ name = n then some v else lastResolved? events id n := by
  unfold lastResolved?
  rw [List.find?_cons]
  by_cases h : scope = id ∧ name = n
  · simp [h]
  · simp [h]

theorem lastResolved?_modified : lastResolved? (⟨.modified, scope, name, v⟩ :: events) id n =
    lastResolved? events id n := by
  unfold lastResolved?
  rw [List.find?_cons]
  simp

end

namespace Resolution

variable {σ : Type}

/-- A world after the evaluation of an expression: only the host and the record of calls may have changed. -/
structure Undisturbed (world world' : World σ) : Prop where
  integrations : world'.integrations = world.integrations
  store : world'.store = world.store
  events : world'.events = world.events

theorem stable_undisturbed (world : World σ) :
    Eval.Stable fun m => m.session = none ∧ Undisturbed world m.world where
  written m s _ _ _ _ h hs _ := by
    rw [h.1] at hs
    cases hs
  performed _ _ _ _ _ h := ⟨h.1, h.2.integrations, h.2.store, h.2.events⟩
  bound _ _ _ h := h
  sequenced m mode text h := by
    refine ⟨h.1, ?_, h.2.store, h.2.events⟩
    rw [← h.2.integrations]
    exact Await.Registry.integrations_sequence m.world.registry mode text

theorem undisturbed_evaluate (declared : NameSet) (values : NameMap Value) (text : String) (world : World σ) :
    Undisturbed world (evaluate declared values text world).2 :=
  (Eval.evaluate_preserves (stable_undisturbed world) ⟨world.integrations, declared⟩ .expression text
    ⟨world, values, ∅, none⟩ ⟨rfl, rfl, rfl, rfl⟩).2

variable {scope : ScopeId} {definitions : VariableSet} {seed : NameMap Value}

theorem step_eq (scope : ScopeId) (declared : NameSet) (p : Progress σ) {name : String} {v : Variable}
    (h : definitions.get? name = some v) : ∃ world diagnostics, Undisturbed p.world world ∧
      p.step scope definitions declared name = Progress.settle ⟨world, p.values, diagnostics⟩ scope name
        (valueOf declared p.values p.world v) := by
  unfold Progress.step valueOf
  rw [h]
  cases hr : v.rule with
  | literal value =>
    simp only [hr]
    exact ⟨p.world, p.diagnostics, ⟨rfl, rfl, rfl⟩, rfl⟩
  | expression text =>
    have hworld := undisturbed_evaluate declared p.values text p.world
    simp only [hr]
    generalize evaluate declared p.values text p.world = answer at hworld
    obtain ⟨result, world⟩ := answer
    cases result with
    | ok value => exact ⟨world, p.diagnostics, hworld, rfl⟩
    | error e => exact ⟨world, p.diagnostics ++ [⟨name, e.message⟩], hworld, rfl⟩

/-- Some variables of a scope were given values, and the host was told. -/
structure Settled (scope : ScopeId) (order : List String) (seed values : NameMap Value) (world world' : World σ) :
    Prop where
  integrations : world'.integrations = world.integrations
  told : ∀ n ∈ order, ∃ v, values[n]? = some v ∧ lastResolved? world'.events scope n = some v
  kept : ∀ n, n ∉ order → values[n]? = seed[n]?
  untold : ∀ id n, id ≠ scope ∨ n ∉ order → lastResolved? world'.events id n = lastResolved? world.events id n

namespace Settled

theorem nil (values : NameMap Value) (world : World σ) : Settled scope [] values values world world where
  integrations := rfl
  told _ hn := absurd hn List.not_mem_nil
  kept _ _ := rfl
  untold _ _ _ := rfl

theorem append {order order' : List String} {values values' : NameMap Value} {world world' world'' : World σ}
    (h : Settled scope order seed values world world') (h' : Settled scope order' values values' world' world'') :
    Settled scope (order ++ order') seed values' world world'' where
  integrations := h'.integrations.trans h.integrations
  told n hn := by
    by_cases hn' : n ∈ order'
    · exact h'.told n hn'
    · rw [h'.kept n hn', h'.untold scope n (.inr hn')]
      exact h.told n ((List.mem_append.1 hn).resolve_right hn')
  kept n hn := by
    rw [List.mem_append, not_or] at hn
    rw [h'.kept n hn.2, h.kept n hn.1]
  untold id n hn := by
    rw [List.mem_append, not_or] at hn
    rw [h'.untold id n (hn.imp_right And.right), h.untold id n (hn.imp_right And.left)]

theorem congr {order order' : List String} {values : NameMap Value} {world world' world'' : World σ}
    (h : Settled scope order seed values world world') (horder : ∀ n, n ∈ order' ↔ n ∈ order)
    (hintegrations : world''.integrations = world'.integrations) (hevents : world''.events = world'.events) :
    Settled scope order' seed values world world'' where
  integrations := hintegrations.trans h.integrations
  told n hn := by
    rw [hevents]
    exact h.told n ((horder n).1 hn)
  kept n hn := h.kept n (mt (horder n).2 hn)
  untold id n hn := by
    rw [hevents]
    exact h.untold id n (hn.imp_right (mt (horder n).2))

theorem single {values : NameMap Value} {world world' : World σ} {name : String} {v : Value}
    (hintegrations : world'.integrations = world.integrations)
    (hevents : ∀ id n, lastResolved? world'.events id n =
      if scope = id ∧ name = n then some v else lastResolved? world.events id n) :
    Settled scope [name] values (values.insert name v) world world' where
  integrations := hintegrations
  told n hn := by
    obtain rfl := List.mem_singleton.1 hn
    exact ⟨v, (NameMap.get?_insert _ _ _ _).trans (if_pos rfl), (hevents scope n).trans (if_pos ⟨rfl, rfl⟩)⟩
  kept n hn := (NameMap.get?_insert _ _ _ _).trans (if_neg fun heq => hn (List.mem_singleton.2 heq.symm))
  untold id n hn := by
    refine (hevents id n).trans (if_neg ?_)
    rintro ⟨rfl, rfl⟩
    exact hn.elim (fun h => h rfl) fun h => h (List.mem_singleton.2 rfl)

end Settled

theorem settled_step (declared : NameSet) (p : Progress σ) {name : String} (h : name ∈ definitions.names) :
    Settled scope [name] p.values (p.step scope definitions declared name).values p.world
      (p.step scope definitions declared name).world := by
  obtain ⟨v, hv⟩ := VariableSet.mem_names_iff.1 h
  obtain ⟨world, diagnostics, hworld, hstep⟩ := step_eq scope declared p hv
  rw [hstep]
  refine .single hworld.integrations fun id n => ?_
  rw [← hworld.events]
  exact lastResolved?_resolved _ _ _ _ _ _

theorem settled_foldl {names : List String} (h : ∀ n ∈ names, n ∈ definitions.names) (declared : NameSet)
    (p : Progress σ) :
    let p' := names.foldl (Progress.step scope definitions declared) p
    Settled scope names p.values p'.values p.world p'.world := by
  induction names generalizing p with
  | nil => exact .nil p.values p.world
  | cons a names ih =>
    obtain ⟨ha, hnames⟩ := List.forall_mem_cons.1 h
    exact (settled_step declared p ha).append (ih hnames _)

theorem store_foldl (names : List String) (declared : NameSet) (p : Progress σ) :
    (names.foldl (Progress.step scope definitions declared) p).world.store = p.world.store := by
  induction names generalizing p with
  | nil => rfl
  | cons a names ih =>
    rw [List.foldl_cons, ih]
    cases hv : definitions.get? a with
    | none => simp only [Progress.step, hv]
    | some v =>
      obtain ⟨world, diagnostics, hworld, hstep⟩ := step_eq scope declared p hv
      rw [hstep]
      exact hworld.store

/-- The host was only told of values that variables got. -/
def Tells (world world' : World σ) : Prop :=
  ∃ new, world'.events = new ++ world.events ∧ ∀ event ∈ new, event.kind = .resolved

theorem Tells.refl (world : World σ) : Tells world world := ⟨[], rfl, nofun⟩

theorem Tells.trans {world world' world'' : World σ} (h : Tells world world') (h' : Tells world' world'') :
    Tells world world'' := by
  obtain ⟨new, hnew, hkind⟩ := h
  obtain ⟨new', hnew', hkind'⟩ := h'
  refine ⟨new' ++ new, by rw [hnew', hnew, List.append_assoc], ?_⟩
  exact List.forall_mem_append.2 ⟨hkind', hkind⟩

theorem tells_foldl (names : List String) (declared : NameSet) (p : Progress σ) :
    Tells p.world (names.foldl (Progress.step scope definitions declared) p).world := by
  induction names generalizing p with
  | nil => exact .refl _
  | cons a names ih =>
    refine .trans ?_ (ih _)
    cases hv : definitions.get? a with
    | none =>
      simp only [Progress.step, hv]
      exact .refl _
    | some v =>
      obtain ⟨world, diagnostics, hworld, hstep⟩ := step_eq scope declared p hv
      rw [hstep]
      exact ⟨[_], congrArg (List.cons _) hworld.events, List.forall_mem_singleton.2 rfl⟩

variable (scope definitions) (world : World σ)

theorem settled_ofGraph (namespaces : NameSet) (seed : NameMap Value) (only : Option NameSet) :
    let pass := ofGraph world scope definitions (Graph.build definitions namespaces) seed only
    Settled scope pass.1.order seed pass.1.values world pass.2 :=
  settled_foldl (order_ofGraph_subset definitions namespaces only) definitions.domain ⟨world, seed, []⟩

theorem store_ofGraph (g : Graph) (seed : NameMap Value) (only : Option NameSet) :
    (ofGraph world scope definitions g seed only).2.store = world.store :=
  store_foldl _ definitions.domain ⟨world, seed, []⟩

theorem tells_ofGraph (g : Graph) (seed : NameMap Value) (only : Option NameSet) :
    Tells world (ofGraph world scope definitions g seed only).2 :=
  tells_foldl _ definitions.domain ⟨world, seed, []⟩

theorem settled_resolve (seed : NameMap Value) :
    let pass := resolve world scope definitions seed none
    Settled scope pass.1.order seed pass.1.values world pass.2 :=
  settled_ofGraph scope definitions world _ seed none

end Resolution

namespace Propagation

variable {σ : Type} (world : World σ) (scope : ScopeId) (definitions : VariableSet) (values : NameMap Value)
  (invoked modified : NameSet)

/-- What follows a script is a pass for what has to be evaluated again, also if that is nothing. -/
theorem propagate_eq_ofGraph :
    let g := Resolution.graph world definitions
    let p := plan g invoked modified
    propagate world scope definitions values invoked modified =
      (p, Resolution.ofGraph world scope definitions g values (some p.recompute)) := by
  intro g p
  by_cases hempty : p.recompute.isEmpty = true
  · have horders := Schedule.orders_ofGraph (g := g) Graph.coherent_build (some p.recompute)
    have hnone : ∀ n, ¬g.Working (some p.recompute) n := by
      rintro n ⟨m, hm, _⟩
      rw [Std.ExtTreeSet.isEmpty_iff.1 hempty] at hm
      exact Std.ExtTreeSet.not_mem_empty hm
    have horder : (Schedule.ofGraph g (some p.recompute)).order = [] :=
      List.eq_nil_iff_forall_not_mem.2 fun n hn => hnone n ((horders.mem_order n).1 hn)
    have hbroken : (Schedule.ofGraph g (some p.recompute)).brokenEdges = [] :=
      List.eq_nil_iff_forall_not_mem.2 fun b hb => hnone _ (horders.cycle b hb).1
    rw [propagate, if_pos hempty, Resolution.ofGraph, horder, hbroken]
    rfl
  · exact if_neg hempty

theorem settled_propagate :
    let result := propagate world scope definitions values invoked modified
    Resolution.Settled scope result.2.1.order values result.2.1.values world result.2.2 := by
  rw [propagate_eq_ofGraph]
  exact Resolution.settled_ofGraph scope definitions world _ values _

theorem store_propagate : (propagate world scope definitions values invoked modified).2.2.store = world.store := by
  rw [propagate_eq_ofGraph]
  exact Resolution.store_ofGraph scope definitions world _ values _

theorem tells_propagate : Resolution.Tells world (propagate world scope definitions values invoked modified).2.2 := by
  rw [propagate_eq_ofGraph]
  exact Resolution.tells_ofGraph scope definitions world _ values _

theorem order_propagate_subset :
    ∀ n ∈ (propagate world scope definitions values invoked modified).2.1.order, n ∈ definitions.names := by
  rw [propagate_eq_ofGraph]
  exact Resolution.order_ofGraph_subset definitions _ _

theorem mem_order_propagate {n : String} (hn : n ∈ modified) (hdeclared : n ∈ definitions.names) :
    n ∈ (propagate world scope definitions values invoked modified).2.1.order := by
  have hnode : n ∈ (Resolution.graph world definitions).names := (Graph.names_build _ _).symm ▸ hdeclared
  have hmem : n ∈ (plan (Resolution.graph world definitions) invoked modified).recompute := by
    refine (Graph.mem_reverseClosure Graph.coherent_build).2 ⟨n, ?_, hnode, .refl⟩
    refine NameSet.mem_ofNames.2 (List.mem_append_right _ (List.mem_filter.2 ⟨NameSet.mem_names.2 hn, ?_⟩))
    exact Std.ExtTreeMap.contains_iff_mem.2 ((Graph.coherent_build.mem_forward n).2 hnode)
  rw [propagate_eq_ofGraph]
  have horders := Schedule.orders_ofGraph (g := Resolution.graph world definitions)
    Graph.coherent_build
    (some (plan (Resolution.graph world definitions) invoked modified).recompute)
  exact (horders.mem_order n).2 ⟨n, hmem, hnode, .refl⟩

end Propagation

namespace CommandRun

variable {σ : Type}

/-- The session of a machine in a scope, and what the host was told of it. -/
def Reports (scope : ScopeId) (values : NameMap Value) (world : World σ) (m : Machine σ) : Prop :=
  ∃ s, m.session = some s ∧ s.scope = scope ∧
    Resolution.Settled scope s.modified.names values m.values world m.world

theorem stable_reports (scope : ScopeId) (values : NameMap Value) (world : World σ) :
    Eval.Stable (Reports scope values world) where
  written := by
    rintro m s name value stored next ⟨s', hs', rfl, h⟩ hs _
    obtain rfl : s' = s := Option.some.inj (hs'.symm.trans hs)
    have hwritten : Resolution.Settled s'.scope [name] m.values (m.values.insert name stored) m.world
        (m.written s' name stored next).world := by
      refine .single rfl fun id n => ?_
      rw [← lastResolved?_modified m.world.events s'.scope id name n stored]
      exact lastResolved?_resolved _ _ _ _ _ _
    refine ⟨_, rfl, rfl, (h.append hwritten).congr (fun n => ?_) rfl rfl⟩
    rw [NameSet.mem_names, Std.ExtTreeSet.mem_insert, Std.compare_eq_iff_eq, List.mem_append, NameSet.mem_names,
      List.mem_singleton, or_comm, eq_comm]
  performed := by
    rintro m owner name op args ⟨s, hs, hscope, h⟩
    exact ⟨s, hs, hscope, h.congr (fun _ => Iff.rfl) rfl rfl⟩
  bound _ _ _ h := h
  sequenced := by
    rintro m mode text ⟨s, hs, hscope, h⟩
    exact ⟨s, hs, hscope, h.congr (fun _ => Iff.rfl) (Await.Registry.integrations_sequence _ _ _) rfl⟩

/-- What a script writes to has a value that the host was told of, also if the script fails. -/
theorem settled_run (world : World σ) (scope : ScopeId) (definitions : VariableSet) (values : NameMap Value)
    (script : String) :
    let c := run world scope definitions values script
    Resolution.Settled scope c.1.modified.names values c.1.values world c.2 := by
  intro c
  have hstart : Resolution.Settled scope (∅ : NameSet).names values values world (world.invoked script).2 :=
    (Resolution.Settled.nil values world).congr (fun n => by simp [NameSet.mem_names])
      (Await.Registry.integrations_invoked world.registry script) rfl
  obtain ⟨m, s, ⟨s', hs', _, h⟩, hs, _, hvalues, hmodified, hworld⟩ := run_of_stable definitions values
    (stable_reports scope values world) world scope script ⟨_, rfl, rfl, hstart⟩ fun _ h => ⟨_, h.choose_spec.1⟩
  obtain rfl : s' = s := Option.some.inj (hs'.symm.trans hs)
  rw [hvalues, hmodified, hworld]
  exact h

end CommandRun

end LiveSheet
