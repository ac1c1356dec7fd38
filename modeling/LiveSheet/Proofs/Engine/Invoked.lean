import LiveSheet.Proofs.Await.Sequencing
import LiveSheet.Proofs.Engine.Refresh
import LiveSheet.Proofs.Propagation.Extent

/-! Who learns of an invoked integration. The variables of a command's own scope that refer to it are evaluated again;
other scopes only hear of global variables that were. -/

namespace LiveSheet

namespace Propagation

/-- The expression of a variable reads one of some names of an enclosing scope. -/
def ReadsOuter (definitions : VariableSet) (names : NameSet) (n : String) : Prop :=
  ∃ v text, definitions.get? n = some v ∧ v.expression? = some text ∧
    ∃ m ∈ (References.scan text names ∅).reads, m ∉ definitions.names

theorem Refers.congr {definitions definitions' : VariableSet} {namespaces invoked : NameSet} {n : String}
    (h : Refers definitions namespaces invoked n) (hnames : definitions'.names = definitions.names)
    (hn : definitions'.get? n = definitions.get? n) : Refers definitions' namespaces invoked n := by
  rwa [Refers, hn, VariableSet.domain_eq, hnames, ← VariableSet.domain_eq]

end Propagation

namespace Engine

variable {σ : Type} {e : Engine σ} {id : ScopeId} {s : ScopeState}

theorem invoked_scriptRun (e : Engine σ) (id : ScopeId) (s : ScopeState) (script : String) :
    (e.scriptRun id s script).1.invoked = Await.invoked e.integrations script :=
  Await.Registry.invoked_fst _ _

theorem mem_order_follow_of_refers (script : String) {n : String}
    (h : Propagation.Refers s.definitions (NameSet.ofNames e.integrations.namespaces)
      (Await.invoked e.integrations script) n) : n ∈ (e.follow id s script).2.1.order := by
  have hwritten := overwritten_scriptRun e id s script
  have hset : (e.scriptRun id s script).2.integrations = e.integrations := (settled_scriptRun e id s script).integrations
  by_cases hmodified : n ∈ (e.scriptRun id s script).1.modified
  · exact mem_order_follow e id s script hmodified
  · have hdeclared : n ∈ (e.scriptRun id s script).1.definitions.names := by
      obtain ⟨v, _, hv, _⟩ := h
      rw [hwritten.names_eq]
      exact VariableSet.mem_names_iff.2 ⟨v, hv⟩
    have hrefers := h.congr hwritten.names_eq (hwritten.get?_eq n hmodified)
    rw [← invoked_scriptRun e id s script, ← hset] at hrefers
    have hextent := Propagation.extent (e.scriptRun id s script).2 id (e.scriptRun id s script).1.definitions
      (e.scriptRun id s script).1.values (e.scriptRun id s script).1.invoked (e.scriptRun id s script).1.modified
    have haffected := (hextent.mem_affected n).2 ⟨hdeclared, .inr hrefers⟩
    exact (hextent.mem_order n).2 ⟨n, (hextent.mem_recompute n).2 ⟨n, haffected, .refl⟩, .refl⟩

/-- After a command, what refers to an integration it invokes was evaluated again in its own scope, and after one in the
global scope so was what reads, in a loaded page, a global variable that was. -/
theorem run_readers (hs : e.scope? id = some s) (script : String) : ∃ outcome e', e.run id script = .ok (outcome, e') ∧
    (∀ n, Propagation.Refers s.definitions (NameSet.ofNames e.integrations.namespaces)
      (Await.invoked e.integrations script) n → n ∈ outcome.recomputed) ∧
    (id = .global → ∀ page t n, e.scope? (.page page) = some t → t.loaded = true →
      Propagation.ReadsOuter t.definitions (NameSet.ofNames outcome.recomputed) n →
        (.page page, n) ∈ outcome.refreshed) := by
  obtain ⟨outcome, hrun, hrecomputed, hrefreshed⟩ := run_eq hs script
  refine ⟨outcome, _, hrun, fun n hn => hrecomputed ▸ mem_order_follow_of_refers script hn, ?_⟩
  rintro rfl page t n ht hloaded ⟨v, text, hv, htext, m, hm, hown⟩
  cases hs
  have hchanged : m ∈ e.carried script := by
    rw [carried, ← hrecomputed]
    exact References.mem_declared_of_scan hm
  obtain ⟨e₁, _, _, _, horder⟩ := pages_refreshPages (e := e.commanded .global e.global script) (e.carried script)
    (NameMap.nodup_keys e.pages) ((NameMap.mem_keys_iff _ _).2 ⟨t, ht⟩) ht hloaded
  rw [hrefreshed]
  exact (horder n).2 (mem_order_refreshPass page (mem_stale_of_scan hv htext hm hchanged hown))

def dice : Integration Value where
  name := "Dice"
  operations := NameMap.ofEntries [("last", ⟨false, .host, fun _ last => (.ok last, last)⟩),
    ("add", ⟨false, .host, fun args _ => (.ok .null, args.head?.getD .null)⟩)]

def rolls : VariableSet where
  declared := [⟨"rolls", .expression "Dice.last()", none, none⟩]
  nodup := by decide

def luck : VariableSet where
  declared := [⟨"luck", .expression "Dice.last()", none, none⟩, ⟨"best", .expression "rolls", none, none⟩]
  nodup := by decide

def parlour : ScopeState :=
  ⟨luck, NameMap.ofEntries [("best", .null), ("luck", .null), ("rolls", .null)], ∅, ∅, true⟩

/-- A variable that shows the last roll, and two pages with another one and one that reads the first. -/
def casino : Engine Value where
  world := { World.start .null .none with registry := Await.Registry.empty.register dice }
  global := ⟨rolls, NameMap.ofEntries [("rolls", .null)], ∅, ∅, true⟩
  pages := NameMap.ofEntries [("inn", parlour), ("port", parlour)]
  tables := ∅

theorem modified_scriptRun_casino : (casino.scriptRun .global casino.global "Dice.add(true)").1.definitions = rolls ∧
    (casino.scriptRun .global casino.global "Dice.add(true)").1.modified = ∅ := by
  have hdeferred : Await.deferredCalls casino.world.integrations .command = Await.writers := by decide +kernel
  have hsequence : Await.sequence casino.world.integrations .command "Dice.add(true)" = "Dice.add(true)" := by
    rw [Await.sequence, hdeferred, Await.sequenceCalls_of_isIdle Await.callable_writers (by rw [Await.isIdle, Await.callPatterns_writers]; cbv), String.ofList_toList]
  have hparse : Program.parse "Dice.add(true)" =
      .ok [.expr (.call (.member (.identifier "Dice") "add") [.boolean true])] := by cbv
  rw [scriptRun, CommandRun.run_of_parse .global casino.global.definitions casino.global.values hsequence (by cbv)
    hparse]
  exact ⟨rfl, rfl⟩

theorem invoked_casino : Await.invoked casino.integrations "Dice.add(true)" = NameSet.ofNames ["Dice"] := by
  rw [Await.invoked, Await.foundFrom_cons (m := ⟨"Dice", "Dice.".toList, "add(true)".toList⟩) (by cbv) (by cbv),
    Await.foundFrom_eq_nil (by cbv)]

theorem carried_casino : casino.carried "Dice.add(true)" = NameSet.ofNames ["rolls"] := by
  obtain ⟨hdefinitions, hmodified⟩ := modified_scriptRun_casino
  have hset := (settled_scriptRun casino .global casino.global "Dice.add(true)").integrations
  have hgraph : Resolution.graph casino.world rolls = ⟨["rolls"], NameMap.ofEntries [("rolls", ∅)],
      NameMap.ofEntries [("rolls", ∅)], NameMap.ofEntries [("rolls", NameSet.ofNames ["Dice"])]⟩ := by decide +kernel
  rw [Resolution.graph] at hgraph
  rw [carried, follow, Propagation.propagate_eq_ofGraph, hdefinitions, hmodified, invoked_scriptRun, invoked_casino,
    Resolution.graph, hset, hgraph]
  change NameSet.ofNames (Schedule.ofGraph _ _).order = _
  cbv

theorem order_refreshPass_parlour {e : Engine Value} (h : e.world.integrations = casino.world.integrations)
    (name : String) : (e.refreshPass parlour name (NameSet.ofNames ["rolls"])).1.order = ["best"] := by
  have hgraph : Resolution.graph casino.world luck = ⟨["luck", "best"], NameMap.ofEntries [("luck", ∅), ("best", ∅)],
      NameMap.ofEntries [("luck", ∅), ("best", ∅)], NameMap.ofEntries [("luck", NameSet.ofNames ["Dice"])]⟩ := by
    decide +kernel
  rw [Resolution.graph, ← h] at hgraph
  have hreaders : readers luck (NameSet.ofNames ["rolls"]) = NameSet.ofNames ["best"] :=
    congrArg NameSet.ofNames (by decide +kernel)
  have hsome : (NameSet.ofNames ["best"]).isEmpty = false := by cbv
  simp only [refreshPass, show parlour.definitions = luck from rfl, hreaders, hsome, Resolution.graph, hgraph,
    Bool.false_eq_true, if_false, Resolution.ofGraph]
  change (Schedule.ofGraph _ _).order = _
  cbv

theorem refers_casino {definitions : VariableSet} {n : String}
    (h : definitions = casino.global.definitions ∧ n = "rolls" ∨ definitions = parlour.definitions ∧ n = "luck") :
    Propagation.Refers definitions (NameSet.ofNames casino.integrations.namespaces)
      (Await.invoked casino.integrations "Dice.add(true)") n := by
  rw [invoked_casino]
  rcases h with ⟨rfl, rfl⟩ | ⟨rfl, rfl⟩
  · exact ⟨_, _, rfl, rfl, "Dice", by decide +kernel, by decide +kernel⟩
  · exact ⟨_, _, rfl, rfl, "Dice", by decide +kernel, by decide +kernel⟩

/-- The page shows the last roll after its own command, and the best one after a roll in the global scope. -/
theorem run_readers_dice :
    (∃ outcome e', casino.run (.page "inn") "Dice.add(true)" = .ok (outcome, e') ∧ "luck" ∈ outcome.recomputed) ∧
    ∃ outcome e', casino.run .global "Dice.add(true)" = .ok (outcome, e') ∧ "rolls" ∈ outcome.recomputed ∧
      (.page "inn", "best") ∈ outcome.refreshed := by
  have hinn : casino.scope? (.page "inn") = some parlour := rfl
  have hglobal : casino.scope? .global = some casino.global := rfl
  obtain ⟨outcome, e', hrun, hrecomputed, _⟩ := run_readers hinn "Dice.add(true)"
  obtain ⟨outcome', e'', hrun', hrecomputed', hrefreshed⟩ := run_readers hglobal "Dice.add(true)"
  have hrolls : "rolls" ∈ outcome'.recomputed := hrecomputed' "rolls" (refers_casino (.inl ⟨rfl, rfl⟩))
  refine ⟨⟨outcome, e', hrun, hrecomputed "luck" (refers_casino (.inr ⟨rfl, rfl⟩))⟩, outcome', e'', hrun', hrolls, ?_⟩
  have hcarried : NameSet.ofNames outcome'.recomputed = NameSet.ofNames ["rolls"] := by
    obtain ⟨_, hrun'', horder, _⟩ := run_eq hglobal "Dice.add(true)"
    cases hrun'.symm.trans hrun''
    rw [horder, ← carried_casino]
    rfl
  refine hrefreshed rfl "inn" parlour "best" hinn rfl ⟨_, _, rfl, rfl, "rolls", ?_, by decide⟩
  rw [hcarried]
  decide +kernel

/-- A page that reads the integration itself hears neither of a command in another page nor of one in the global
scope. -/
theorem run_readers_casino :
    Propagation.Refers parlour.definitions (NameSet.ofNames casino.integrations.namespaces)
      (Await.invoked casino.integrations "Dice.add(true)") "luck" ∧
    casino.scope? (.page "port") = some parlour ∧ parlour.loaded = true ∧
    ∀ id, id = .global ∨ id = .page "inn" → ∃ outcome e', casino.run id "Dice.add(true)" = .ok (outcome, e') ∧
      (.page "port", "luck") ∉ outcome.refreshed := by
  refine ⟨refers_casino (.inr ⟨rfl, rfl⟩), rfl, rfl, ?_⟩
  rintro id (rfl | rfl)
  · have hglobal : casino.scope? .global = some casino.global := rfl
    have hkeys : "port" ∈ casino.pages.keys := by decide
    have hport : (casino.commanded .global casino.global "Dice.add(true)").pages["port"]? = some parlour := rfl
    obtain ⟨outcome, hrun, _, hrefreshed⟩ := run_eq hglobal "Dice.add(true)"
    obtain ⟨e₁, _, hset, _, horder⟩ := pages_refreshPages (casino.carried "Dice.add(true)")
      (NameMap.nodup_keys casino.pages) hkeys hport rfl
    refine ⟨outcome, _, hrun, fun hmem => ?_⟩
    rw [hrefreshed] at hmem
    have hluck := (horder "luck").1 hmem
    have hcommanded := (kept_integrations casino.integrations).commanded casino .global casino.global "Dice.add(true)"
      rfl rfl
    rw [carried_casino, order_refreshPass_parlour (hset.trans hcommanded)] at hluck
    exact absurd hluck (by decide)
  · have hinn : casino.scope? (.page "inn") = some parlour := rfl
    obtain ⟨outcome, hrun, _, hrefreshed⟩ := run_eq hinn "Dice.add(true)"
    refine ⟨outcome, _, hrun, ?_⟩
    rw [hrefreshed]
    exact List.not_mem_nil

end Engine

end LiveSheet
