import LiveSheet.Engine.Reload
import LiveSheet.Proofs.Engine.Declaring

/-! Reloading. It is all or nothing, also when it is done in place, one change after the other: a sheet that cannot
be declared leaves the engine as it was, and any other sheet leaves its own scopes and tables, and of the other
integrations those that the host registered. -/

namespace LiveSheet

/-- Why a page cannot be declared: its first entry that cannot be. -/
def Page.refusal? (page : Page) : Option SheetError := page.entries.findSome? VariableEntry.refusal?

/-- Why a sheet cannot be declared: the first entry that cannot be, of the global scope or else of a page. -/
def Sheet.refusal? (sheet : Sheet) : Option SheetError :=
  (sheet.entries.findSome? VariableEntry.refusal?).or (sheet.pages.toList.findSome? fun entry => entry.2.refusal?)

namespace Integration

variable {σ : Type}

/-- An integration does what a table declares: it answers `get` and `keys`, both deferred if the table says so. -/
structure Serves (integration : Integration σ) (name : String) (table : Table) : Prop where
  name_eq : integration.name = name
  keys_eq : integration.operations.keys = ["get", "keys"]
  operation : ∀ (key : String) op, integration.operations[key]? = some op →
    op.deferred = table.deferred ∧ op.origin = .table
  run_get : ∀ op, integration.operations["get"]? = some op → ∀ args state, op.run args state =
    (match table.values[((args.head?.map Value.display).getD "")]? with
      | some v => .ok v
      | none => .error (.integration name "get" ("unknown key '" ++ (args.head?.map Value.display).getD "" ++ "'")),
      state)
  run_keys : ∀ op, integration.operations["keys"]? = some op → ∀ args state, op.run args state =
    (.ok (.array (table.values.keys.map .string)), state)

theorem serves_table (name : String) (t : Table) : (table (σ := σ) name t.deferred t.values).Serves name t where
  name_eq := rfl
  keys_eq := rfl
  operation key op h := by
    rcases List.mem_cons.1 (NameMap.mem_of_get?_ofEntries h) with heq | hmem
    · cases heq
      exact ⟨rfl, rfl⟩
    · cases List.mem_singleton.1 hmem
      exact ⟨rfl, rfl⟩
  run_get op h args state := by
    obtain rfl := Option.some.inj h
    rfl
  run_keys op h args state := by
    obtain rfl := Option.some.inj h
    rfl

end Integration

namespace Engine

variable {σ α β : Type}

def revise (f : Await.Registry σ → Await.Registry σ) : InPlace σ Unit :=
  modify fun e => { e with world := { e.world with registry := f e.world.registry } }

def dropTables : InPlace σ Unit := do
  let earlier := (← get).tables
  modify fun e => { e with tables := ∅ }
  earlier.names.forM fun name => revise (·.remove name)

def addTables (sheet : Sheet) : InPlace σ Unit :=
  sheet.integrations.forM fun integration => do
    modify fun e => { e with tables := e.tables.insert integration.name }
    revise (·.register integration)

def reloadInPlace (sheet : Sheet) : InPlace σ Unit := do
  let definitions ← sheet.globalDefinitions
  let pages ← pageStates sheet
  dropTables
  addTables sheet
  revise (·.invalidate)
  modify fun e => { e with global := { ScopeState.empty with definitions }, pages }

variable {e e' : Engine σ} {sheet : Sheet} {name : String}

theorem on_dropTables (e : Engine σ) : dropTables.on e = (.ok (), { e with
    world := { e.world with registry := e.tables.names.foldl Await.Registry.remove e.world.registry }
    tables := ∅ }) := by
  have hfold : ∀ (names : List String) (e : Engine σ), (names.foldl (fun e name =>
      { e with world := { e.world with registry := e.world.registry.remove name } }) e) =
        { e with world := { e.world with registry := names.foldl Await.Registry.remove e.world.registry } } := by
    intro names
    induction names with
    | nil => exact fun _ => rfl
    | cons name names ih => exact fun e => ih _
  have hloop := InPlace.on_forM (f := fun name => revise (·.remove name)) (fun _ _ => rfl) e.tables.names
    { e with tables := ∅ }
  rw [hfold] at hloop
  exact hloop

theorem names_integrations (sheet : Sheet) :
    (sheet.integrations (σ := σ)).map (·.name) = sheet.tables.keys := by
  rw [Sheet.integrations, List.map_map, ← Std.ExtTreeMap.map_fst_toList_eq_keys]
  rfl

theorem on_addTables (e : Engine σ) (sheet : Sheet) : (addTables sheet).on e = (.ok (), { e with
    world := { e.world with registry := sheet.integrations.foldl Await.Registry.register e.world.registry }
    tables := sheet.tables.keys.foldl (·.insert ·) e.tables }) := by
  have hfold : ∀ (integrations : List (Integration σ)) (e : Engine σ), (integrations.foldl (fun e integration =>
      { e with
        world := { e.world with registry := e.world.registry.register integration }
        tables := e.tables.insert integration.name }) e) =
        { e with
          world := { e.world with registry := integrations.foldl Await.Registry.register e.world.registry }
          tables := (integrations.map (·.name)).foldl (·.insert ·) e.tables } := by
    intro integrations
    induction integrations with
    | nil => exact fun _ => rfl
    | cons integration integrations ih => exact fun e => ih _
  rw [← names_integrations (σ := σ), ← hfold]
  exact InPlace.on_forM (fun _ _ => rfl) sheet.integrations e

/-- In place a reload comes to the same, and one that fails has changed nothing. -/
theorem on_reloadInPlace (sheet : Sheet) (e : Engine σ) : (reloadInPlace sheet).on e = match e.reload sheet with
    | .ok e' => (.ok (), e')
    | .error fault => (.error fault, e) := by
  rw [reloadInPlace, InPlace.on_bind, InPlace.on_lift, reload]
  cases sheet.globalDefinitions with
  | error fault => rfl
  | ok definitions =>
    simp only
    rw [InPlace.on_bind, InPlace.on_lift]
    cases pageStates sheet with
    | error fault => rfl
    | ok pages =>
      simp only
      rw [InPlace.on_bind, on_dropTables]
      simp only
      rw [InPlace.on_bind, on_addTables]
      rfl

structure Declared (s : ScopeState) (entries : List VariableEntry) (commands labels : NameMap String) : Prop where
  definitions : VariableEntry.Declares entries s.definitions
  values : s.values = ∅
  commands : s.commands = commands
  labels : s.labels = labels
  loaded : s.loaded = false

structure Reloaded (e : Engine σ) (sheet : Sheet) (e' : Engine σ) : Prop where
  scopeIds_eq : e'.scopeIds = .global :: sheet.pages.keys.map .page
  global : Declared e'.global sheet.entries ∅ ∅
  page : ∀ (name : String) page, sheet.pages[name]? = some page →
    ∃ s, e'.scope? (.page name) = some s ∧ Declared s page.entries page.commands page.labels
  registered : ∀ (name : String) table, sheet.tables[name]? = some table →
    ∃ integration, e'.integrations.get? name = some integration ∧ integration.Serves name table
  dropped : ∀ name ∈ e.tables, name ∉ sheet.tables → e'.integrations.get? name = none
  /-- Integrations that neither sheet declares stay as they are. -/
  others : ∀ name ∉ e.tables, name ∉ sheet.tables → e'.integrations.get? name = e.integrations.get? name
  mem_tables : ∀ name, name ∈ e'.tables ↔ name ∈ sheet.tables
  cache : e'.world.registry.cache = .empty
  /-- Nothing else of the world is touched. -/
  world : { e'.world with registry := e.world.registry } = e.world

def declaredPage (page : Page) : ScopeState :=
  { ScopeState.empty with
    definitions := VariableEntry.declared page.entries
    commands := page.commands
    labels := page.labels }

/-- The engine with a sheet loaded, as far as it can be declared. -/
def loaded (e : Engine σ) (sheet : Sheet) : Engine σ where
  world := { e.world with registry := replaceTables e.world.registry e.tables sheet }
  global := { ScopeState.empty with definitions := VariableEntry.declared sheet.entries }
  pages := sheet.pages.map fun _ => declaredPage
  tables := sheet.tables.domain

theorem pageState_eq (page : Page) : pageState page = unlessFault page.refusal? (declaredPage page) := by
  rw [pageState, VariableEntry.declareAll_eq, Page.refusal?]
  cases page.entries.findSome? VariableEntry.refusal? <;> rfl

theorem pageStates_eq (sheet : Sheet) : pageStates sheet =
    unlessFault (sheet.pages.toList.findSome? fun entry => entry.2.refusal?)
      (sheet.pages.map fun _ => declaredPage) := by
  have hentry : ∀ entry : String × Page, (pageState entry.2).map (entry.1, ·) =
      unlessFault entry.2.refusal? (entry.1, declaredPage entry.2) := by
    intro entry
    rw [pageState_eq]
    cases entry.2.refusal? <;> rfl
  unfold pageStates
  rw [mapM_unlessFault hentry]
  cases sheet.pages.toList.findSome? fun entry => entry.2.refusal? with
  | some fault => rfl
  | none => exact congrArg Except.ok (NameMap.ofEntries_map_toList _ _)

theorem reload_eq (e : Engine σ) (sheet : Sheet) : e.reload sheet = unlessFault sheet.refusal? (e.loaded sheet) := by
  rw [reload, Sheet.globalDefinitions, VariableEntry.declareAll_eq, pageStates_eq, Sheet.refusal?]
  cases sheet.entries.findSome? VariableEntry.refusal? with
  | some fault => rfl
  | none => cases sheet.pages.toList.findSome? fun entry => entry.2.refusal? <;> rfl

theorem get?_remove (set : IntegrationSet σ) (name n : String) :
    (set.remove name).get? n = if name = n then none else set.get? n := by
  unfold IntegrationSet.remove
  split
  · change (set.byName.erase name)[n]? = _
    rw [Std.ExtTreeMap.getElem?_erase]
    simp only [Std.compare_eq_iff_eq]
    rfl
  · next h =>
    split
    · next hn =>
      subst hn
      exact Std.ExtTreeMap.getElem?_eq_none (mt Std.ExtTreeMap.mem_iff_contains.1 h)
    · rfl

theorem get?_foldl_remove (names : List String) (registry : Await.Registry σ) (n : String) :
    (names.foldl Await.Registry.remove registry).integrations.get? n =
      if n ∈ names then none else registry.integrations.get? n := by
  induction names generalizing registry with
  | nil => simp
  | cons name names ih =>
    rw [List.foldl_cons, ih, Await.Registry.remove, get?_remove]
    by_cases hn : name = n
    · subst hn
      simp
    · simp [hn, Ne.symm hn]

theorem byName_foldl_register (added : List (Integration σ)) (registry : Await.Registry σ) :
    (added.foldl Await.Registry.register registry).integrations.byName =
      added.foldl (fun m integration => m.insert integration.name integration) registry.integrations.byName := by
  induction added generalizing registry with
  | nil => rfl
  | cons integration added ih => exact ih (registry.register integration)

/-- The tables of the sheet are registered, and those of the sheet before are not, unless they are among them. -/
theorem get?_replaceTables (registry : Await.Registry σ) (earlier : NameSet) (sheet : Sheet) (n : String) :
    (replaceTables registry earlier sheet).integrations.get? n =
      (sheet.tables[n]?.map fun t => .table n t.deferred t.values).or
        (if n ∈ earlier then none else registry.integrations.get? n) := by
  have hremoved := get?_foldl_remove earlier.names registry n
  simp only [NameSet.mem_names] at hremoved
  change (sheet.integrations.foldl Await.Registry.register _).integrations.byName[n]? = _
  rw [byName_foldl_register, Sheet.integrations, List.foldl_map, ← hremoved]
  exact NameMap.get?_foldl_toList (fun name (t : Table) => Integration.table name t.deferred t.values) _ _ n

theorem mem_tables_loaded (e : Engine σ) (sheet : Sheet) (n : String) :
    n ∈ (e.loaded sheet).tables ↔ n ∈ sheet.tables := by
  rw [loaded, NameMap.domain, NameSet.mem_ofNames, Std.ExtTreeMap.mem_keys]

theorem get?_loaded (e : Engine σ) {n : String} (h : n ∉ sheet.tables) :
    (e.loaded sheet).integrations.get? n = if n ∈ e.tables then none else e.integrations.get? n := by
  rw [integrations, World.integrations, loaded, get?_replaceTables, Std.ExtTreeMap.getElem?_eq_none h]
  rfl

theorem declared_page {page : Page} (h : page.refusal? = none) :
    Declared (declaredPage page) page.entries page.commands page.labels :=
  ⟨VariableEntry.declares_declared h, rfl, rfl, rfl, rfl⟩

theorem reloaded_loaded (e : Engine σ) (h : sheet.refusal? = none) : Reloaded e sheet (e.loaded sheet) := by
  obtain ⟨hglobal, hpages⟩ := Option.or_eq_none_iff.1 h
  refine ⟨?_, ?_, ?_, ?_, ?_, ?_, mem_tables_loaded e sheet, rfl, rfl⟩
  · rw [scopeIds, loaded, Std.ExtTreeMap.keys_map]
  · exact ⟨VariableEntry.declares_declared hglobal, rfl, rfl, rfl, rfl⟩
  · intro name page hpage
    have hmem := Std.ExtTreeMap.mem_toList_iff_getElem?_eq_some.2 hpage
    refine ⟨declaredPage page, ?_, declared_page (List.findSome?_eq_none_iff.1 hpages _ hmem)⟩
    change (sheet.pages.map fun _ => declaredPage)[name]? = _
    rw [Std.ExtTreeMap.getElem?_map, hpage]
    rfl
  · intro name t ht
    refine ⟨_, ?_, Integration.serves_table name t⟩
    rw [integrations, World.integrations, loaded, get?_replaceTables, ht]
    rfl
  · intro name hearlier hname
    rw [get?_loaded e hname, if_pos hearlier]
  · intro name hearlier hname
    rw [get?_loaded e hname, if_neg hearlier]

inductive Step (σ : Type) where
  | define (id : ScopeId) (v : Variable)
  | addCommand (id : ScopeId) (name script : String)
  | addLabel (id : ScopeId) (name text : String)
  | register (integration : Integration σ)
  | remove (name : String)
  | reload (sheet : Sheet)
  | request (request : Request)

def step (e : Engine σ) : Step σ → Engine σ
  | .define id v => (e.define id v).2
  | .addCommand id name script => e.addCommand id name script
  | .addLabel id name text => e.addLabel id name text
  | .register integration => e.register integration
  | .remove name => e.remove name
  | .reload sheet => ((reloadInPlace sheet).on e).2
  | .request request => e.perform request

def history (e : Engine σ) (steps : List (Step σ)) : Engine σ := steps.foldl step e

/-- The host registered an integration itself, and no sheet that was loaded since declares a table of its name. -/
def HostRegistered (steps : List (Step σ)) (name : String) (integration : Integration σ) : Prop :=
  integration.name = name ∧ ∃ earlier later, steps = earlier ++ .register integration :: later ∧
    ∀ sheet, .reload sheet ∈ later → sheet.refusal? = none → name ∉ sheet.tables

/-- Every integration is a table of the last sheet by its name, or the host registered it. -/
def Sourced (steps : List (Step σ)) (e : Engine σ) : Prop := ∀ name integration,
  e.integrations.get? name = some integration → name ∈ e.tables ∨ HostRegistered steps name integration

theorem HostRegistered.concat {steps : List (Step σ)} {integration : Integration σ}
    (h : HostRegistered steps name integration) {s : Step σ}
    (hs : ∀ sheet, s = .reload sheet → sheet.refusal? = none → name ∉ sheet.tables) :
    HostRegistered (steps ++ [s]) name integration := by
  obtain ⟨hname, earlier, later, rfl, hlater⟩ := h
  refine ⟨hname, earlier, later ++ [s], by simp, fun sheet hmem => ?_⟩
  rcases List.mem_append.1 hmem with hmem | hmem
  · exact hlater sheet hmem
  · exact hs sheet (List.mem_singleton.1 hmem).symm

theorem Sourced.concat {steps : List (Step σ)} (h : Sourced steps e) {s : Step σ} (htables : e'.tables = e.tables)
    (hregistered : ∀ name integration, e'.integrations.get? name = some integration →
      e.integrations.get? name = some integration)
    (hs : ∀ sheet, s = .reload sheet → sheet.refusal? ≠ none) : Sourced (steps ++ [s]) e' := by
  intro name integration hget
  refine (h name integration (hregistered _ _ hget)).imp (fun hmem => htables ▸ hmem) fun hhost => ?_
  exact hhost.concat fun sheet heq hnone => absurd hnone (hs sheet heq)

theorem tables_setScope (e : Engine σ) (id : ScopeId) (s : ScopeState) : (e.setScope id s).tables = e.tables := by
  cases id <;> rfl

theorem kept_tables (names : NameSet) : Kept fun e : Engine σ => e.tables = names where
  resolved _ id _ h _ := (tables_setScope _ id _).trans h
  commanded _ id _ _ h _ := (tables_setScope _ id _).trans h
  refreshed _ _ _ _ h _ := h

theorem define_eq (e : Engine σ) (id : ScopeId) (v : Variable) : ∃ s, (e.define id v).2 = e.setScope id s := by
  unfold define
  extract_lets s
  cases s.definitions.insert v <;> exact ⟨_, rfl⟩

theorem get?_register (e : Engine σ) (integration : Integration σ) (n : String) :
    (e.register integration).integrations.get? n =
      if integration.name = n then some integration else e.integrations.get? n :=
  NameMap.get?_insert _ _ _ _

theorem integrations_remove (e : Engine σ) (name : String) :
    (e.remove name).integrations = e.integrations.remove name := by
  unfold remove IntegrationSet.remove
  split
  · next h => exact if_pos h
  · rfl

theorem tables_remove (e : Engine σ) (name : String) : (e.remove name).tables = e.tables := by
  unfold remove
  split <;> rfl

theorem Sourced.setScope {steps : List (Step σ)} (h : Sourced steps e) {s : Step σ} (id : ScopeId) (state : ScopeState)
    (hs : ∀ sheet, s ≠ .reload sheet) : Sourced (steps ++ [s]) (e.setScope id state) := by
  refine h.concat (tables_setScope e id state) (fun name integration hget => ?_) fun sheet heq => absurd heq (hs sheet)
  rwa [integrations, world_setScope] at hget

theorem Sourced.reload {steps : List (Step σ)} (h : Sourced steps e) (sheet : Sheet) :
    Sourced (steps ++ [.reload sheet]) (e.step (.reload sheet)) := by
  rw [Engine.step, on_reloadInPlace, reload_eq]
  cases hrefusal : sheet.refusal? with
  | some fault =>
    -- A refused sheet counts for nothing, so it does not stand between a registration and now.
    refine h.concat rfl (fun _ _ hget => hget) fun sheet' heq hnone => ?_
    cases heq
    cases hrefusal.symm.trans hnone
  | none =>
    intro name integration hget
    change name ∈ (e.loaded sheet).tables ∨ _
    rw [mem_tables_loaded]
    refine or_iff_not_imp_left.2 fun hname => ?_
    change (e.loaded sheet).integrations.get? name = _ at hget
    rw [get?_loaded e hname] at hget
    split at hget
    · cases hget
    · next hearlier =>
      -- It was registered before and was no table of the sheet before either, so it is the host's.
      refine ((h name integration hget).resolve_left hearlier).concat fun sheet' heq _ => ?_
      cases heq
      exact hname

theorem Sourced.step {steps : List (Step σ)} (h : Sourced steps e) (s : Step σ) :
    Sourced (steps ++ [s]) (e.step s) := by
  cases s with
  | define id v =>
    obtain ⟨state, heq⟩ := define_eq e id v
    rw [Engine.step, heq]
    exact h.setScope id state fun _ heq => nomatch heq
  | addCommand id name script => exact h.setScope id _ fun _ heq => nomatch heq
  | addLabel id name text => exact h.setScope id _ fun _ heq => nomatch heq
  | register integration =>
    intro name other hget
    rw [Engine.step, get?_register] at hget
    split at hget
    · next hname =>
      cases hget
      exact .inr ⟨hname, steps, [], rfl, fun _ hmem => absurd hmem List.not_mem_nil⟩
    · exact (h name other hget).imp id fun hhost => hhost.concat fun _ heq => nomatch heq
  | remove name =>
    refine h.concat (tables_remove e name) (fun n integration hget => ?_) fun _ heq => nomatch heq
    rw [Engine.step, integrations_remove, get?_remove] at hget
    split at hget
    · cases hget
    · exact hget
  | reload sheet => exact h.reload sheet
  | request request =>
    refine h.concat ((kept_tables e.tables).perform rfl request) (fun name integration hget => ?_)
      fun _ heq => nomatch heq
    have hkept : (e.perform request).world.integrations = e.world.integrations :=
      (kept_integrations e.world.integrations).perform rfl request
    rwa [Engine.step, integrations, hkept] at hget

theorem sourced_history (host : σ) (store : Store) (steps : List (Step σ)) :
    Sourced steps ((start host store).history steps) := by
  induction steps using List.reverseRecOn with
  | nil =>
    intro name integration hget
    cases hget
  | append_singleton steps s ih =>
    rw [history, List.foldl_append]
    exact ih.step s

/-- Reloading is all or nothing. A sheet that cannot be declared leaves everything as it was, although a reload
changes the engine in place. Any other sheet is loaded, and whatever is registered beside its tables, the host has
registered since a sheet last declared a table of that name. -/
theorem reload_all_or_nothing (e : Engine σ) (sheet : Sheet) : match e.reload sheet with
    | .error fault => sheet.refusal? = some fault ∧ (reloadInPlace sheet).on e = (.error fault, e)
    | .ok e' => sheet.refusal? = none ∧ (reloadInPlace sheet).on e = (.ok (), e') ∧ Reloaded e sheet e' ∧
        ∀ host store steps, e = (start host store).history steps → ∀ name ∉ sheet.tables, ∀ integration,
          e'.integrations.get? name = some integration → HostRegistered steps name integration := by
  rw [on_reloadInPlace, reload_eq]
  cases hrefusal : sheet.refusal? with
  | some fault => exact ⟨rfl, rfl⟩
  | none =>
    refine ⟨rfl, rfl, reloaded_loaded e hrefusal, ?_⟩
    rintro host store steps rfl name hname integration hget
    rw [get?_loaded _ hname] at hget
    split at hget
    · cases hget
    · next hearlier => exact (sourced_history host store steps name integration hget).resolve_left hearlier

def coin : Integration Unit where
  name := "Coin"
  operations := NameMap.ofEntries [("flip", ⟨true, .host, fun _ s => (.ok (.bool true), s)⟩)]

def shop : Sheet where
  entries := [⟨"gold", some (.number 3), none, none, some 10⟩]
  pages := NameMap.ofEntries [("stall", ⟨[⟨"cost", none, some "Prices.get('bread') * gold", none, none⟩], ∅, ∅⟩)]
  tables := NameMap.ofEntries [("Prices", ⟨false, NameMap.ofEntries [("bread", .number 2)]⟩)]

def tavern : Sheet where
  entries := [⟨"gold", some (.number 3), none, none, none⟩, ⟨"gold", some (.number 5), none, none, none⟩]
  pages := ∅
  tables := ∅

def ruin : Sheet where
  entries := [⟨"gold", some (.number 3), none, none, none⟩]
  pages := NameMap.ofEntries [("cellar",
    ⟨[⟨"rats", some (.number 7), none, none, none⟩, ⟨"key", none, none, none, none⟩], ∅, ∅⟩)]
  tables := NameMap.ofEntries [("Loot", ⟨false, ∅⟩)]

theorem reload_all_or_nothing_shop :
    let e := (start () (.memory ∅)).history [.reload shop, .register coin]
    (∃ e', e.reload tavern = .ok e' ∧ Reloaded e tavern e' ∧ e.integrations.namespaces = ["Coin", "Prices"] ∧
      e'.integrations.namespaces = ["Coin"] ∧ HostRegistered [.reload shop, .register coin] "Coin" coin) ∧
    (reloadInPlace ruin).on e = (.error (.definition "key" .noRule), e) := by
  intro e
  have htavern := reload_all_or_nothing e tavern
  have hruin := reload_all_or_nothing e ruin
  have hrefusal : ruin.refusal? = some (.definition "key" .noRule) := by rfl
  rw [reload_eq] at htavern hruin ⊢
  rw [hrefusal] at hruin
  obtain ⟨-, -, hloaded, hhost⟩ := htavern
  have hcoin : (e.loaded tavern).integrations.get? "Coin" = some coin := by rfl
  refine ⟨⟨_, rfl, hloaded, by decide +kernel, by decide +kernel, hhost () _ _ rfl "Coin" ?_ coin hcoin⟩, hruin.2⟩
  decide +kernel

end Engine

end LiveSheet
