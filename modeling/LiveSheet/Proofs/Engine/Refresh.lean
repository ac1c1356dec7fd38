import LiveSheet.Proofs.Engine.Globals
import LiveSheet.Proofs.Engine.Outcome
import LiveSheet.Proofs.Eval.Alike
import LiveSheet.Proofs.Propagation.Readers

/-! The refresh of a page is as good as loading it again. Where expressions see only what the scans of their texts
say, the pass over the readers of what changed gives the values of a full pass over the page. -/

namespace LiveSheet

namespace Resolution

variable {σ : Type}

/-- The answer to an expression is the same wherever its dependencies and the names of an enclosing scope that its text
mentions have the same values. -/
def LocalWithin (world : World σ) (definitions : VariableSet) (outer : NameSet) : Prop :=
  ∀ n v text, definitions.get? n = some v → v.expression? = some text → ∀ A B : NameMap Value,
    (∀ d, (Graph.build definitions ∅).Reads n d → A[d]? = B[d]?) →
    (∀ m ∈ (References.scan text outer ∅).reads, A[m]? = B[m]?) →
    (evaluate definitions.domain A text world).1 = (evaluate definitions.domain B text world).1

variable {world : World σ} {definitions : VariableSet} {outer : NameSet}

theorem LocalWithin.isLocal (h : LocalWithin world definitions outer) (houter : ∀ m ∈ outer, m ∉ definitions.names) :
    Local world definitions := by
  intro n v text hv htext A B hreads hfree
  exact h n v text hv htext A B hreads fun m hm => hfree m (houter m (References.mem_declared_of_scan hm))

theorem Solved.congr_within (h : LocalWithin world definitions outer) {A B : NameMap Value} {n : String}
    (hsolved : Solved world definitions A n) (hn : A[n]? = B[n]?)
    (hreads : ∀ d, (Graph.build definitions ∅).Reads n d → A[d]? = B[d]?)
    (houter : ∀ v text, definitions.get? n = some v → v.expression? = some text →
      ∀ m ∈ (References.scan text outer ∅).reads, A[m]? = B[m]?) : Solved world definitions B n := by
  intro v hv
  rw [← hn, hsolved v hv, valueOf, valueOf]
  cases hr : v.rule with
  | literal value => rfl
  | expression text =>
    have htext : v.expression? = some text := by rw [Variable.expression?, hr]
    simp only [h n v text hv htext A B hreads (houter v text hv htext)]

theorem values_resolve_congr {world₁ world₂ : World σ} (hlocal : Local world definitions)
    (hworld : NoIntegrations world) (h₁ : NoIntegrations world₁) (h₂ : NoIntegrations world₂)
    (hacyclic : (Graph.build definitions ∅).Acyclic) (scope : ScopeId) (seed : NameMap Value) :
    (resolve world₁ scope definitions seed none).1.values =
      (resolve world₂ scope definitions seed none).1.values := by
  obtain ⟨hfirst, hfirstFree⟩ := solved_resolve hlocal hworld h₁ scope hacyclic seed
  obtain ⟨hsecond, hsecondFree⟩ := solved_resolve hlocal hworld h₂ scope hacyclic seed
  apply Std.ExtTreeMap.ext_getElem?
  intro n
  refine eq_of_solved hlocal hacyclic (P := fun _ => True) (fun _ _ _ _ => trivial) (fun m hm => ?_)
    (fun m _ => .inl ⟨hfirst m, hsecond m⟩) n trivial
  rw [hfirstFree m hm, hsecondFree m hm]

end Resolution

namespace Engine

variable {σ : Type} {e : Engine σ} {s : ScopeState} {page : String}

/-- The global variables that a page can see: those it does not declare itself. -/
def outer (e : Engine σ) (s : ScopeState) : NameSet :=
  NameSet.ofNames (e.global.definitions.names.filter fun n => !s.definitions.contains n)

theorem mem_outer {n : String} : n ∈ e.outer s ↔ n ∈ e.global.definitions.names ∧ n ∉ s.definitions.names := by
  simp [outer, VariableSet.contains_eq]

/-- The names that a refresh evaluates again. -/
def stale (e : Engine σ) (s : ScopeState) (changed : NameSet) : NameSet :=
  (Resolution.graph e.world s.definitions).reverseClosure (readers s.definitions changed)

theorem mem_stale {changed : NameSet} {n : String} : n ∈ e.stale s changed ↔
    ∃ m ∈ readers s.definitions changed, m ∈ s.definitions.names ∧
      Relation.ReflTransGen (Resolution.graph e.world s.definitions).Reads n m := by
  unfold stale Resolution.graph
  rw [Graph.mem_reverseClosure Graph.coherent_build, Graph.names_build]

theorem mem_stale_of_reads {changed : NameSet} {a b : String} (hread : (Graph.build s.definitions ∅).Reads a b)
    (hb : b ∈ e.stale s changed) : a ∈ e.stale s changed := by
  obtain ⟨m, hm, hnode, hchain⟩ := mem_stale.1 hb
  exact mem_stale.2 ⟨m, hm, hnode, .head ((Graph.reads_build_iff _).1 hread) hchain⟩

theorem mem_stale_of_scan {changed declared : NameSet} {n m text : String} {v : Variable}
    (hv : s.definitions.get? n = some v) (htext : v.expression? = some text)
    (hm : m ∈ (References.scan text declared ∅).reads) (hc : m ∈ changed) (hown : m ∉ s.definitions.names) :
    n ∈ e.stale s changed := by
  have hmem := VariableSet.mem_names_iff.2 ⟨v, hv⟩
  have hvisible : ∀ k, k ∈ NameSet.ofNames (changed.names.filter fun name => !s.definitions.contains name) ↔
      k ∈ changed ∧ k ∉ s.definitions.names := by
    simp [VariableSet.contains_eq]
  refine mem_stale.2 ⟨n, ?_, hmem, .refl⟩
  exact Propagation.mem_readersOf.2 ⟨fun h => ((hvisible n).1 h).2 hmem, v, text, hv, htext, m,
    References.mem_scan_congr hm ((hvisible m).2 ⟨hc, hown⟩)⟩

theorem mem_order_refreshPass (page : String) {changed : NameSet} {n : String} (hn : n ∈ e.stale s changed) :
    n ∈ (e.refreshPass s page changed).1.order := by
  obtain ⟨m, hm, hnode, hchain⟩ := mem_stale.1 hn
  have hmem : n ∈ s.definitions.names := by
    rcases hchain.cases_head with rfl | ⟨b, hb, _⟩
    · exact hnode
    · have hb := Graph.coherent_build.source_mem hb
      rwa [Graph.names_build] at hb
  unfold refreshPass
  by_cases hempty : (readers s.definitions changed).isEmpty = true
  · rw [Std.ExtTreeSet.isEmpty_iff.1 hempty] at hm
    exact absurd hm Std.ExtTreeSet.not_mem_empty
  · simp only [hempty]
    have horders := Schedule.orders_ofGraph (g := Resolution.graph e.world s.definitions)
      Graph.coherent_build (some (e.stale s changed))
    exact (horders.mem_order n).2 ⟨n, hn, (Graph.names_build _ _).symm ▸ hmem, .refl⟩

/-- The values of a page are those of a full pass over old global values, and the current ones differ from these only in
names that changed. -/
structure Outdated (world₀ : World σ) (old : NameMap Value) (changed : NameSet) (page : String) (s : ScopeState)
    (e : Engine σ) : Prop where
  start : Resolution.NoIntegrations world₀
  world : Resolution.NoIntegrations e.world
  acyclic : (Graph.build s.definitions ∅).Acyclic
  within : Resolution.LocalWithin world₀ s.definitions (e.outer s)
  values : s.values = (Resolution.resolve world₀ (.page page) s.definitions old none).1.values
  valued : ∀ n ∈ changed, ∃ v, e.global.values[n]? = some v
  kept : ∀ n, n ∉ changed → e.global.values[n]? = old[n]?

namespace Outdated

variable {world₀ world₁ : World σ} {old : NameMap Value} {changed : NameSet}

theorem isLocal (h : Outdated world₀ old changed page s e) : Resolution.Local world₀ s.definitions :=
  h.within.isLocal fun _ hm => (mem_outer.1 hm).2

theorem shown_free (h : Outdated world₀ old changed page s e) {n : String} (hn : n ∉ s.definitions.names) :
    (shown s.definitions e.global.values changed s.values)[n]? = e.global.values[n]? := by
  rw [get?_shown]
  by_cases hc : n ∈ changed
  · obtain ⟨v, hv⟩ := h.valued n hc
    rw [if_pos ⟨hc, hn⟩, hv, Option.some_or]
  · rw [if_neg fun h => hc h.1, h.values, h.kept n hc]
    exact (Resolution.solved_resolve h.isLocal h.start h.start (.page page) h.acyclic old).2 n hn

/-- What is not stale has its new value before the pass, since it reads no name that changed, directly or not. -/
theorem shown_eq (h : Outdated world₀ old changed page s e) (hworld₁ : Resolution.NoIntegrations world₁) {n : String}
    (hn : n ∉ e.stale s changed) : (shown s.definitions e.global.values changed s.values)[n]? =
      (Resolution.resolve world₁ (.page page) s.definitions e.global.values none).1.values[n]? := by
  have hold := (Resolution.solved_resolve h.isLocal h.start h.start (.page page) h.acyclic old).1
  obtain ⟨hnew, hfree⟩ :=
    Resolution.solved_resolve h.isLocal h.start hworld₁ (.page page) h.acyclic e.global.values
  rw [← h.values] at hold
  have hsame : ∀ m, m ∉ changed ∨ m ∈ s.definitions.names →
      s.values[m]? = (shown s.definitions e.global.values changed s.values)[m]? := by
    intro m hm
    rw [get?_shown, if_neg fun h => hm.elim (fun hm => hm h.1) h.2]
  refine Resolution.eq_of_solved h.isLocal h.acyclic (fun a b ha hread => mt (mem_stale_of_reads hread) ha)
    (fun m hm => (h.shown_free hm).trans (hfree m hm).symm) (fun m hm => .inl ⟨?_, hnew m⟩) n hn
  intro v hv
  have hmem := VariableSet.mem_names_iff.2 ⟨v, hv⟩
  refine (hold m).congr_within h.within (hsame m (.inr hmem)) (fun d hd => hsame d (.inr ?_)) ?_ v hv
  · have hd := Graph.coherent_build.target_mem hd
    rwa [Graph.names_build] at hd
  · intro w text hw htext k hk
    have hown := (mem_outer.1 (References.mem_declared_of_scan hk)).2
    exact hsame k (.inl fun hc => hm (mem_stale_of_scan hw htext hk hc hown))

/-- What a refresh evaluates again solves its equation, and everything else keeps what the page is shown. -/
theorem solved_or_shown (h : Outdated world₀ old changed page s e) (n : String) :
    Resolution.Solved world₀ s.definitions (e.refreshPass s page changed).1.values n ∨
      n ∉ e.stale s changed ∧ (e.refreshPass s page changed).1.values[n]? =
        (shown s.definitions e.global.values changed s.values)[n]? := by
  by_cases horder : n ∈ (e.refreshPass s page changed).1.order
  · refine .inl ?_
    unfold refreshPass at horder ⊢
    by_cases hempty : (readers s.definitions changed).isEmpty = true
    · simp [hempty] at horder
    · simp only [hempty] at horder ⊢
      exact Resolution.solved_ofGraph h.isLocal h.start h.world _ h.acyclic _ horder
  · exact .inr ⟨mt (mem_order_refreshPass page) horder, (settled_refreshPass e s page changed).kept n horder⟩

/-- Refreshed, the page has the values of a full pass over the current global values. -/
theorem refreshPass_eq_resolve (h : Outdated world₀ old changed page s e) (hworld₁ : Resolution.NoIntegrations world₁) :
    (e.refreshPass s page changed).1.values =
      (Resolution.resolve world₁ (.page page) s.definitions e.global.values none).1.values := by
  obtain ⟨hnew, hfree⟩ :=
    Resolution.solved_resolve h.isLocal h.start hworld₁ (.page page) h.acyclic e.global.values
  apply Std.ExtTreeMap.ext_getElem?
  intro n
  refine Resolution.eq_of_solved h.isLocal h.acyclic (P := fun _ => True) (fun _ _ _ _ => trivial) (fun m hm => ?_)
    (fun m _ => ?_) n trivial
  · have horder := mt (order_refreshPass_subset e s page changed m) hm
    exact ((settled_refreshPass e s page changed).kept m horder).trans ((h.shown_free hm).trans (hfree m hm).symm)
  · rcases h.solved_or_shown m with hsolved | ⟨hm, heq⟩
    · exact .inl ⟨hsolved, hnew m⟩
    · exact .inr (heq.trans (h.shown_eq hworld₁ hm))

end Outdated

theorem noIntegrations_of_eq {world world' : World σ} (h : Resolution.NoIntegrations world)
    (heq : world'.integrations = world.integrations) : Resolution.NoIntegrations world' := by
  rwa [Resolution.NoIntegrations, heq]

/-- After every script in the global scope, completed or not, a page that agreed with a full pass over it agrees with
one again. -/
theorem run_global_eq_resolve (hworld : Resolution.NoIntegrations e.world) (hs : e.scope? (.page page) = some s)
    (hloaded : s.loaded = true) (hacyclic : (Graph.build s.definitions ∅).Acyclic)
    (hlocal : Resolution.LocalWithin e.world s.definitions (e.outer s))
    (hvalues : s.values = (Resolution.resolve e.world (.page page) s.definitions e.global.values none).1.values)
    (script : String) :
    ∃ outcome e' s', e.run .global script = .ok (outcome, e') ∧ e'.scope? (.page page) = some s' ∧
      s'.definitions = s.definitions ∧
      s'.values = (Resolution.resolve e'.world (.page page) s'.definitions e'.global.values none).1.values := by
  have hscope : e.scope? .global = some e.global := rfl
  obtain ⟨outcome, hrun, _⟩ := run_eq hscope script
  have hwritten := overwritten_scriptRun e .global e.global script
  have hpass := settled_follow e .global e.global script
  have hintegrations : (e.commanded .global e.global script).world.integrations = e.world.integrations :=
    hpass.integrations.trans (settled_scriptRun e .global e.global script).integrations
  have hpage : page ∈ e.pages.keys := (NameMap.mem_keys_iff _ _).2 ⟨s, hs⟩
  have hs' : (e.commanded .global e.global script).pages[page]? = some s := hs
  obtain ⟨e₁, hglobal, hworld₁, hrefreshed, _⟩ :=
    pages_refreshPages (e.carried script) (NameMap.nodup_keys e.pages) hpage hs' hloaded
  obtain ⟨hglobal', hworld'⟩ := ran_global_frame e e.global script
  refine ⟨outcome, _, _, hrun, hrefreshed, rfl, ?_⟩
  rw [hglobal', ← hglobal]
  have houter : e₁.outer s = e.outer s := by
    rw [outer, hglobal]
    exact congrArg (fun names => NameSet.ofNames (names.filter fun n => !s.definitions.contains n)) hwritten.names_eq
  have hvalue : ∀ n : String, e₁.global.values[n]? = (e.follow .global e.global script).2.1.values[n]? := by
    intro n
    rw [hglobal]
    rfl
  have houtdated : Outdated e.world e.global.values (e.carried script) page s e₁ := by
    have hworld₁ := noIntegrations_of_eq hworld (hworld₁.trans hintegrations)
    refine ⟨hworld, hworld₁, hacyclic, houter ▸ hlocal, hvalues, ?_, ?_⟩
    · intro n hn
      obtain ⟨v, hv, _⟩ := hpass.told n (NameSet.mem_ofNames.1 hn)
      exact ⟨v, (hvalue n).trans hv⟩
    · intro n hn
      rw [carried, NameSet.mem_ofNames] at hn
      exact (hvalue n).trans (follow_kept e .global e.global script hn)
  exact houtdated.refreshPass_eq_resolve (noIntegrations_of_eq hworld (hworld'.trans hintegrations))

def resting : VariableSet where
  declared := [⟨"rest", .expression "hp + hp", none, none⟩]
  nodup := by decide

theorem acyclic_resting : (Graph.build resting ∅).Acyclic := Graph.acyclic_of_schedule (by cbv)

theorem localWithin_resting {world : World Unit} {outer : NameSet} (hworld : Resolution.NoIntegrations world)
    (houter : "hp" ∈ outer) : Resolution.LocalWithin world resting outer := by
  intro n v text hv htext A B _ hreads
  have hn := VariableSet.mem_names_iff.2 ⟨v, hv⟩
  rw [show resting.names = ["rest"] from rfl, List.mem_singleton] at hn
  subst hn
  obtain rfl : _ = v := Option.some.inj hv
  obtain rfl : "hp + hp" = text := Option.some.inj htext
  have hcalls := hworld.deferredCalls_eq_nil
  have hprogram : References.programOf world.integrations resting.domain B "hp + hp" =
      .ok [.expr (.binary .add (.identifier "hp") (.identifier "hp"))] := by
    unfold References.programOf
    rw [Await.sequence, hcalls, Await.sequenceCalls_nil, String.ofList_toList]
    cbv
  have hnames : References.readNames world.integrations resting.domain B "hp + hp" = .ok ["hp", "hp"] := by
    unfold References.readNames
    rw [hprogram, Await.sequence, hcalls, Await.sequenceCalls_nil, String.ofList_toList]
    cbv
  have hmentioned : "hp" ∈ (References.scan "hp + hp" (NameSet.ofNames ["hp"]) ∅).reads := by decide +kernel
  have hvalue := hreads "hp" (References.mem_scan_congr hmentioned houter)
  refine congrArg Prod.fst (References.evaluate_eq_of_readNames hnames (fun p hp => ?_) fun n hn => ?_)
  · rw [hprogram] at hp
    cases hp
    simp [Program.LiteralKeys, Statement.value, Expr.Everywhere, Expr.LiteralKey]
  · obtain rfl : n = "hp" := by simpa using hn
    rw [Eval.known, Eval.known, hvalue]

theorem run_global_eq_resolve_inn : ∃ outcome e' s',
    (inn.perform .loadAll).run .global "addValue('hp', 1)" = .ok (outcome, e') ∧ e'.scope? (.page "inn") = some s' ∧
      s'.definitions = resting ∧
      s'.values = (Resolution.resolve e'.world (.page "inn") s'.definitions e'.global.values none).1.values := by
  have hstart : Resolution.NoIntegrations inn.world := rfl
  have hworld : Resolution.NoIntegrations (inn.perform .loadAll).world :=
    noIntegrations_of_eq hstart ((kept_integrations inn.world.integrations).perform rfl .loadAll)
  have hinn : inn.scope? (.page "inn") = some ⟨resting, ∅, ∅, ∅, false⟩ := by rfl
  obtain ⟨t, ht, hname⟩ := (kept_names .global ["hp"]).perform names_inn.1 .loadAll
  obtain ⟨e₁, halong, hpage⟩ := page_loadAll hinn
  have hglobal : e₁.global = (inn.perform .loadAll).global := halong.global.trans (global_loadAll inn).symm
  have hworld₁ : Resolution.NoIntegrations (e₁.world.note (.load (.page "inn"))) :=
    noIntegrations_of_eq hstart (halong.integrations.trans (settled_fullPass inn .global inn.global).integrations)
  have hdefinitions : (e₁.passed (.page "inn") ⟨resting, ∅, ∅, ∅, false⟩).definitions = resting := by
    have hfirst : (inn.resolved .global inn.global).world.store = .none := store_resolved inn .global inn.global
    have hstore : e₁.world.store = .none := (halong.store fun _ => by rw [hfirst]; rfl).trans hfirst
    change overlaid _ e₁.world.store resting = resting
    rw [hstore]
    exact VariableSet.ext_get? (names_overlaid _ _ _) fun n => (get?_overlay _ _ n).trans (by simp [Variable.stored])
  have houter : "hp" ∈ (inn.perform .loadAll).outer (e₁.passed (.page "inn") ⟨resting, ∅, ∅, ∅, false⟩) := by
    refine mem_outer.2 ⟨?_, by rw [hdefinitions]; decide⟩
    rw [Option.some.inj ht, hname]
    exact List.mem_singleton.2 rfl
  have hlocal := localWithin_resting hworld houter
  have hvalues := Resolution.values_resolve_congr (hlocal.isLocal fun m hm => hdefinitions ▸ (mem_outer.1 hm).2) hworld
    hworld₁ hworld acyclic_resting (.page "inn") (inn.perform .loadAll).global.values
  have hshown : (e₁.passed (.page "inn") ⟨resting, ∅, ∅, ∅, false⟩).values =
      (Resolution.resolve (e₁.world.note (.load (.page "inn"))) (.page "inn") resting
        (inn.perform .loadAll).global.values none).1.values := by
    change (Resolution.resolve (e₁.world.note (.load (.page "inn"))) (.page "inn") (e₁.passed (.page "inn") ⟨resting, ∅, ∅, ∅, false⟩).definitions e₁.global.values none).1.values = _
    rw [hdefinitions, hglobal]
  obtain ⟨outcome, e', s', hrun, hs', hsame, hvalues'⟩ :=
    run_global_eq_resolve hworld hpage rfl (hdefinitions.symm ▸ acyclic_resting) (hdefinitions.symm ▸ hlocal)
      (by rw [hshown, hdefinitions, hvalues]) "addValue('hp', 1)"
  exact ⟨outcome, e', s', hrun, hs', hsame.trans hdefinitions, hvalues'⟩

end Engine

end LiveSheet
