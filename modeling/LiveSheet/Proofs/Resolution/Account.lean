import LiveSheet.Proofs.Resolution.Frame

/-! The account of a pass. Every variable of the order gets one value and the host is told of it in its turn; one
whose expression fails gets null and a diagnostic, and those behind it get their turn all the same. Nothing else
changes. -/

namespace LiveSheet.Resolution

variable {σ : Type} {scope : ScopeId} {definitions : VariableSet} {seed : NameMap Value}

/-- The host is told once of each variable that a pass goes through. -/
theorem events_foldl (declared : NameSet) {names : List String} (hnodup : names.Nodup)
    (hnames : ∀ n ∈ names, n ∈ definitions.names) (p : Progress σ) :
    let p' := names.foldl (Progress.step scope definitions declared) p
    p'.world.events =
      names.reverse.map (fun n => ⟨.resolved, scope, n, p'.values[n]?.getD .null⟩) ++ p.world.events := by
  induction names generalizing p with
  | nil => rfl
  | cons a names ih =>
    obtain ⟨ha, hnodup⟩ := List.nodup_cons.1 hnodup
    obtain ⟨hdeclared, hnames⟩ := List.forall_mem_cons.1 hnames
    obtain ⟨v, hv⟩ := VariableSet.mem_names_iff.1 hdeclared
    obtain ⟨world, diagnostics, hworld, hstep⟩ := step_eq scope declared p hv
    have hvalue : (names.foldl (Progress.step scope definitions declared)
        (p.step scope definitions declared a)).values[a]? = some (valueOf declared p.values p.world v) := by
      rw [values_foldl_of_notMem declared _ ha, values_step declared p hv, NameMap.get?_insert, if_pos rfl]
    intro p'
    have hlater : p'.world.events = _ := ih hnodup hnames (p.step scope definitions declared a)
    have hfirst : (p.step scope definitions declared a).world.events =
        ⟨.resolved, scope, a, valueOf declared p.values p.world v⟩ :: p.world.events := by
      rw [hstep, ← hworld.events]
      rfl
    have ha : p'.values[a]?.getD .null = valueOf declared p.values p.world v := congrArg (·.getD .null) hvalue
    rw [hlater, hfirst, List.reverse_cons, List.map_append, List.append_assoc, List.map_singleton, ha]
    rfl

/-- The diagnostic of a variable whose expression fails where the others have the given values. -/
def diagnostic? (definitions : VariableSet) (values : NameMap Value) (world : World σ) (name : String) :
    Option Diagnostic :=
  match (definitions.get? name).map (answerOf definitions.domain values world) with
  | some (.error e) => some ⟨name, e.message⟩
  | _ => none

theorem diagnostic?_eq_some {values : NameMap Value} {world : World σ} {name : String} {d : Diagnostic} :
    diagnostic? definitions values world name = some d ↔ ∃ v e, definitions.get? name = some v ∧
      answerOf definitions.domain values world v = .error e ∧ d = ⟨name, e.message⟩ := by
  unfold diagnostic?
  cases hv : definitions.get? name with
  | none => simp
  | some v => cases ha : answerOf definitions.domain values world v <;> simp [ha, eq_comm]

theorem diagnostics_step (p : Progress σ) {name : String} (h : name ∈ definitions.names) :
    (p.step scope definitions definitions.domain name).diagnostics =
      p.diagnostics ++ (diagnostic? definitions p.values p.world name).toList := by
  obtain ⟨v, hv⟩ := VariableSet.mem_names_iff.1 h
  simp only [Progress.step, diagnostic?, answerOf, hv, Option.map_some]
  cases hr : v.rule with
  | literal value => simp [Progress.settle]
  | expression text =>
    simp only
    generalize evaluate definitions.domain p.values text p.world = answer
    obtain ⟨result, world⟩ := answer
    cases result <;> simp [Progress.settle]

/-- The state of a pass when the turn of a name comes. -/
def turn (scope : ScopeId) (definitions : VariableSet) (seed : NameMap Value) (world : World σ) (order : List String)
    (name : String) : Progress σ :=
  progress scope definitions seed world (order.takeWhile (· ≠ name))

theorem turn_split {world : World σ} {earlier later : List String} {name : String} (h : name ∉ earlier) :
    turn scope definitions seed world (earlier ++ name :: later) name =
      progress scope definitions seed world earlier := by
  have hearlier : ∀ n ∈ earlier, decide (n ≠ name) = true := fun n hn => decide_eq_true fun heq => h (heq ▸ hn)
  rw [turn, List.takeWhile_append_of_pos hearlier, List.takeWhile_cons_of_neg (by simp), List.append_nil]

theorem notMem_of_split {earlier later : List String} {name : String} (h : (earlier ++ name :: later).Nodup) :
    name ∉ earlier := fun hmem => (List.nodup_append.1 h).2.2 name hmem name List.mem_cons_self rfl

theorem turn_append {world : World σ} {names more : List String} {name : String} (hnodup : names.Nodup)
    (h : name ∈ names) : turn scope definitions seed world (names ++ more) name =
      turn scope definitions seed world names name := by
  obtain ⟨earlier, later, rfl⟩ := List.append_of_mem h
  have hearlier := notMem_of_split hnodup
  rw [List.append_assoc, List.cons_append, turn_split hearlier, turn_split hearlier]

theorem diagnostics_progress (scope : ScopeId) (seed : NameMap Value) (world : World σ) {names : List String}
    (hnodup : names.Nodup) (hnames : ∀ n ∈ names, n ∈ definitions.names) :
    (progress scope definitions seed world names).diagnostics =
      names.filterMap fun n =>
        let p := turn scope definitions seed world names n
        diagnostic? definitions p.values p.world n := by
  induction names using List.reverseRecOn with
  | nil => rfl
  | append_singleton names a ih =>
    obtain ⟨hnodup', _, hdisjoint⟩ := List.nodup_append.1 hnodup
    obtain ⟨hnames, hdeclared⟩ := List.forall_mem_append.1 hnames
    have ha : a ∉ names := fun h => hdisjoint a h a (List.mem_singleton.2 rfl) rfl
    have hearlier : (names.filterMap fun n =>
        let p := turn scope definitions seed world (names ++ [a]) n
        diagnostic? definitions p.values p.world n) =
          (progress scope definitions seed world names).diagnostics := by
      rw [ih hnodup' hnames]
      refine List.filterMap_congr fun n hn => ?_
      rw [turn_append hnodup' hn]
    rw [progress_append, List.foldl_cons, List.foldl_nil, diagnostics_step _ (hdeclared a (List.mem_singleton.2 rfl)),
      List.filterMap_append, hearlier, List.filterMap_cons, List.filterMap_nil, turn_split ha]
    cases diagnostic? definitions _ _ a <;> rfl

/-- What a pass leaves behind. -/
structure Account (world : World σ) (scope : ScopeId) (definitions : VariableSet) (seed : NameMap Value)
    (r : Resolution) (world' : World σ) : Prop where
  nodup : r.order.Nodup
  declared : ∀ n ∈ r.order, n ∈ definitions.names
  kept : ∀ n, n ∉ r.order → r.values[n]? = seed[n]?
  /-- Each variable gets what its rule gives in its turn, whatever failed before. -/
  settled : ∀ n ∈ r.order, ∀ v, definitions.get? n = some v →
    let p := turn scope definitions seed world r.order n
    r.values[n]? = some (valueOf definitions.domain p.values p.world v)
  literal : ∀ n ∈ r.order, ∀ v value, definitions.get? n = some v → v.rule = .literal value →
    r.values[n]? = some value
  /-- The host is told of each variable once, in order. The latest event is the first. -/
  told : world'.events = r.order.reverse.map (fun n => ⟨.resolved, scope, n, r.values[n]?.getD .null⟩) ++ world.events
  /-- The diagnostics are those of the expressions that fail in their turn. -/
  mem_diagnostics : ∀ d, d ∈ r.diagnostics ↔ d.name ∈ r.order ∧ ∃ v text e,
    let p := turn scope definitions seed world r.order d.name
    definitions.get? d.name = some v ∧ v.rule = .expression text ∧
      (evaluate definitions.domain p.values text p.world).1 = .error e ∧ d.message = e.message
  ordered : (r.diagnostics.map Diagnostic.name).Sublist r.order
  failed : ∀ d ∈ r.diagnostics, r.values[d.name]? = some .null

theorem answerOf_eq_error {declared : NameSet} {values : NameMap Value} {world : World σ} {v : Variable}
    {e : SheetError} : answerOf declared values world v = .error e ↔
      ∃ text, v.rule = .expression text ∧ (evaluate declared values text world).1 = .error e := by
  unfold answerOf
  cases v.rule <;> simp

theorem sublist_filterMap_diagnostic? (values : String → NameMap Value) (world : String → World σ)
    (names : List String) :
    ((names.filterMap fun n => diagnostic? definitions (values n) (world n) n).map Diagnostic.name).Sublist names := by
  induction names with
  | nil => exact .slnil
  | cons n names ih =>
    rw [List.filterMap_cons]
    cases hd : diagnostic? definitions (values n) (world n) n with
    | none => exact ih.cons n
    | some d =>
      obtain ⟨v, e, _, _, rfl⟩ := diagnostic?_eq_some.1 hd
      exact ih.cons_cons n

theorem account_progress (world : World σ) (scope : ScopeId) (definitions : VariableSet) (seed : NameMap Value)
    {order : List String} (hnodup : order.Nodup) (hdeclared : ∀ n ∈ order, n ∈ definitions.names)
    (brokenEdges : List BrokenEdge) :
    let p := progress scope definitions seed world order
    Account world scope definitions seed ⟨p.values, order, brokenEdges, p.diagnostics⟩ p.world := by
  have hsettled : ∀ n ∈ order, ∀ v, definitions.get? n = some v →
      (progress scope definitions seed world order).values[n]? = some (valueOf definitions.domain
        (turn scope definitions seed world order n).values (turn scope definitions seed world order n).world v) := by
    intro n hn v hv
    obtain ⟨earlier, later, rfl⟩ := List.append_of_mem hn
    rw [turn_split (notMem_of_split hnodup)]
    exact values_progress_of_split hnodup hv
  have hdiagnostics := diagnostics_progress scope seed world hnodup hdeclared
  have hmem : ∀ d, d ∈ (progress scope definitions seed world order).diagnostics ↔ d.name ∈ order ∧ ∃ v e,
      definitions.get? d.name = some v ∧ answerOf definitions.domain
        (turn scope definitions seed world order d.name).values
        (turn scope definitions seed world order d.name).world v = .error e ∧ d.message = e.message := by
    intro d
    simp only [hdiagnostics, List.mem_filterMap, diagnostic?_eq_some]
    constructor
    · rintro ⟨n, hn, v, e, hv, he, rfl⟩
      exact ⟨hn, v, e, hv, he, rfl⟩
    · rintro ⟨hn, v, e, hv, he, hmessage⟩
      exact ⟨d.name, hn, v, e, hv, he, by rw [← hmessage]⟩
  intro p
  refine ⟨hnodup, hdeclared, fun n hn => values_progress_of_notMem hn, hsettled, ?_, ?_, ?_, ?_, ?_⟩
  · intro n hn v value hv hr
    rw [hsettled n hn v hv, valueOf, hr]
  · exact events_foldl definitions.domain hnodup hdeclared ⟨world, seed, []⟩
  · intro d
    refine (hmem d).trans ?_
    simp only [answerOf_eq_error]
    constructor
    · rintro ⟨hn, v, e, hv, ⟨text, hrule, he⟩, hmessage⟩
      exact ⟨hn, v, text, e, hv, hrule, he, hmessage⟩
    · rintro ⟨hn, v, text, e, hv, hrule, he, hmessage⟩
      exact ⟨hn, v, e, hv, ⟨text, hrule, he⟩, hmessage⟩
  · rw [hdiagnostics]
    exact sublist_filterMap_diagnostic? _ _ order
  · intro d hd
    obtain ⟨hn, v, e, hv, he, _⟩ := (hmem d).1 hd
    rw [hsettled d.name hn v hv, valueOf_eq, he]
    rfl

/-- A pass goes through its working set and no further. Each variable of it gets a value in its turn, of which the host
is told; the failures are reported in that order, and none keeps a later variable from its turn. All else stays as it
was in the seed. -/
theorem ofGraph_account (world : World σ) (scope : ScopeId) (definitions : VariableSet) (namespaces : NameSet)
    (seed : NameMap Value) (only : Option NameSet) :
    let g := Graph.build definitions namespaces
    let pass := ofGraph world scope definitions g seed only
    (∀ n, n ∈ pass.1.order ↔ g.Working only n) ∧ Account world scope definitions seed pass.1 pass.2 := by
  intro g pass
  have horders : (Schedule.ofGraph g only).Orders g (g.Working only) :=
    Schedule.orders_ofGraph Graph.coherent_build only
  exact ⟨horders.mem_order, account_progress world scope definitions seed horders.nodup
    (order_ofGraph_subset definitions namespaces only) (Schedule.ofGraph g only).brokenEdges⟩

end LiveSheet.Resolution
