import LiveSheet.Proofs.Engine.Loading
import LiveSheet.Proofs.Resolution.Steady

/-! Restarting. What scripts write is in the store as the variables have it, so at any time the variables are the
declared ones with the values of the store in place. A new engine with this store comes to the same. -/

namespace LiveSheet

namespace Engine

theorem overlay_insert {definitions : VariableSet} {values : NameMap Value} {name : String} {value stored : Value}
    {next : VariableSet} (h : (overlay definitions values).write? name value = some (stored, next)) :
    overlay definitions (values.insert name stored) = next := by
  obtain ⟨d', hd', heq⟩ := Option.map_eq_some_iff.1 h
  obtain ⟨rfl, rfl⟩ := Prod.mk.inj heq
  refine VariableSet.ext_get? (by rw [VariableSet.names_freeze, names_overlay, names_overlay]) fun n => ?_
  rw [VariableSet.get?_freeze, get?_overlay, get?_overlay, NameMap.get?_insert, Option.map_map]
  by_cases hn : n = name
  · subst hn
    rw [get?_overlay] at hd'
    obtain ⟨d, hd, rfl⟩ := Option.map_eq_some_iff.1 hd'
    have hclamp : (d.stored values[n]?).clamp value = d.clamp value := by
      cases values[n]? with
      | none => rfl
      | some v => exact d.clamp_freeze _ value
    have hfreeze : (d.stored values[n]?).freeze (d.clamp value) = d.freeze (d.clamp value) := by
      cases values[n]? <;> rfl
    rw [hd, hclamp]
    simp only [if_true, Option.map_some, Function.comp_apply, hfreeze, Variable.stored_clamp]
  · simp only [if_neg hn, if_neg (Ne.symm hn), Function.comp_def]

end Engine

namespace CommandRun

variable {σ : Type} {id : ScopeId} {d definitions : VariableSet} {state : Store.State}

/-- The variables of the session are the declared ones with the values of the store in place, and nothing was stored
for another scope. -/
def Mirrored (id : ScopeId) (d : VariableSet) (state : Store.State) (m : Machine σ) : Prop :=
  ∃ session after, m.session = some session ∧ session.scope = id ∧ m.world.store = .memory after ∧
    session.definitions = Engine.overlay d (after.values id) ∧ ∀ id' ≠ id, after.values id' = state.values id'

theorem stable_mirrored (id : ScopeId) (d : VariableSet) (state : Store.State) :
    Eval.Stable (Mirrored (σ := σ) id d state) where
  written := by
    rintro m session' name value stored next ⟨session, after, hsession, hscope, hstore, hoverlay, hothers⟩ hsession' hw
    obtain rfl : session = session' := Option.some.inj (hsession.symm.trans hsession')
    refine ⟨_, after.write id name stored, rfl, hscope, ?_, ?_, fun id' hid => ?_⟩
    · change m.world.store.keep session.scope name stored = _
      rw [hstore, hscope]
      rfl
    · rw [Store.State.values_write, if_pos rfl]
      exact (Engine.overlay_insert (hoverlay ▸ hw)).symm
    · rw [Store.State.values_write, if_neg (Ne.symm hid)]
      exact hothers id' hid
  performed _ _ _ _ _ h := h
  bound _ _ _ h := h
  sequenced _ _ _ h := h

theorem mirrored_run {world : World σ} (values : NameMap Value) (hstore : world.store = .memory state)
    (hdefinitions : definitions = Engine.overlay d (state.values id)) (script : String) :
    let c := run world id definitions values script
    ∃ after, c.2.store = .memory after ∧ c.1.definitions = Engine.overlay d (after.values id) ∧
      ∀ id' ≠ id, after.values id' = state.values id' := by
  intro c
  obtain ⟨m, session, ⟨session', after, hsession', _, hafter, hoverlay, hothers⟩, hsession, hsame, _, _, hworld⟩ :=
    run_of_stable definitions values (stable_mirrored id d state) world id script
      ⟨_, state, rfl, rfl, hstore, hdefinitions, fun _ _ => rfl⟩ fun _ h => ⟨_, h.choose_spec.choose_spec.1⟩
  obtain rfl : session' = session := Option.some.inj (hsession'.symm.trans hsession)
  exact ⟨after, (congrArg World.store hworld).trans hafter, hsame.trans hoverlay, hothers⟩

end CommandRun

namespace Engine

variable {σ : Type} {e e' : Engine σ} {s : ScopeState} {id : ScopeId}

def definitions? (e : Engine σ) (id : ScopeId) : Option VariableSet := (e.scope? id).map ScopeState.definitions

theorem definitions?_setScope (e : Engine σ) (world : World σ) (id id' : ScopeId) (s : ScopeState) :
    ({ e with world }.setScope id s).definitions? id' =
      if id = id' then some s.definitions else e.definitions? id' := by
  rw [definitions?, scope?_setScope, scope?_mk]
  split
  · rfl
  · rfl

/-- The variables of every scope are the declared ones with the values of the store in place. -/
structure Backed (declared : ScopeId → Option VariableSet) (state : Store.State) (e : Engine σ) : Prop where
  store : e.world.store = .memory state
  definitions : ∀ id, e.definitions? id = (declared id).map fun definitions => overlay definitions (state.values id)

variable {declared : ScopeId → Option VariableSet} {state : Store.State}

theorem Backed.definitions_eq (h : e.Backed declared state) (hs : e.scope? id = some s) :
    ∃ d, declared id = some d ∧ s.definitions = overlay d (state.values id) := by
  have heq := h.definitions id
  rw [definitions?, hs] at heq
  obtain ⟨d, hd, heq⟩ := Option.map_eq_some_iff.1 heq.symm
  exact ⟨d, hd, heq.symm⟩

theorem definitions_passed (h : e.world.store = .memory state) (id : ScopeId) (s : ScopeState) :
    (e.passed id s).definitions = overlay s.definitions (state.values id) := by
  rw [passed, h]
  rfl

theorem backed_commanded (h : e.Backed declared state) (hs : e.scope? id = some s) (script : String) :
    ∃ state, (e.commanded id s script).Backed declared state := by
  obtain ⟨d, hd, hdefinitions⟩ := h.definitions_eq hs
  obtain ⟨after, hstore, hoverlay, hothers⟩ := CommandRun.mirrored_run s.values h.store hdefinitions script
  refine ⟨after, ?_, fun id' => ?_⟩
  · have hfollow : (e.follow id s script).2.2.store = (e.scriptRun id s script).2.store :=
      Propagation.store_propagate _ _ _ _ _ _
    rw [commanded, world_setScope]
    exact hfollow.trans hstore
  · rw [commanded, definitions?_setScope]
    split
    · next hid =>
      subst hid
      rw [hd]
      exact congrArg some hoverlay
    · next hid => rw [h.definitions id', hothers id' (Ne.symm hid)]

theorem kept_backed (declared : ScopeId → Option VariableSet) :
    Kept fun e : Engine σ => ∃ state, e.Backed declared state where
  resolved e id s := by
    rintro ⟨state, h⟩ hs
    refine ⟨state, (store_resolved e id s).trans (congrArg (Store.note · (.load id)) h.store), fun id' => ?_⟩
    rw [Engine.resolved, definitions?_setScope]
    split
    · next hid =>
      subst hid
      obtain ⟨d, hd, hoverlay⟩ := h.definitions_eq hs
      rw [hd, definitions_passed h.store, hoverlay, overlay_overlay]
      rfl
    · exact h.definitions id'
  commanded e id s script := by
    rintro ⟨state, h⟩ hs
    exact backed_commanded h hs script
  refreshed e name s changed := by
    rintro ⟨state, h⟩ hs
    refine ⟨state, (store_refreshPass e s name changed).trans h.store, fun id => ?_⟩
    rw [Engine.refreshed, definitions?_setScope]
    split
    · next hid =>
      subst hid
      rw [← h.definitions, definitions?, hs]
      rfl
    · exact h.definitions id

theorem backed_loadAll (hstore : e.world.store = .memory state) :
    (e.perform .loadAll).Backed e.definitions? state := by
  obtain ⟨_, _, h⟩ := loadAll_eq e
  have hglobal : (e.resolved .global e.global).world.store = .memory state :=
    (store_resolved e .global e.global).trans (congrArg (Store.note · (.load .global)) hstore)
  have hnote : ∀ access, (e.resolved .global e.global).world.store.note access =
      (e.resolved .global e.global).world.store := fun _ => by rw [hglobal]; rfl
  refine ⟨(h.store hnote).trans hglobal, fun id => ?_⟩
  cases id with
  | global =>
    change some (e.perform .loadAll).global.definitions = _
    rw [global_loadAll, definitions_passed hstore]
    rfl
  | page name =>
    rw [definitions?, definitions?]
    cases hs : e.scope? (.page name) with
    | some s =>
      obtain ⟨e₁, halong, hpage⟩ := page_loadAll hs
      rw [hpage]
      exact congrArg some (definitions_passed ((halong.store hnote).trans hglobal) _ s)
    | none =>
      have hmem : name ∉ e.pages.keys := by
        rw [NameMap.mem_keys_iff, not_exists]
        intro s hs'
        cases hs.symm.trans hs'
      have hnone : (e.perform .loadAll).scope? (.page name) = none := (h.others name hmem).trans hs
      rw [hnone]
      rfl

/-- Engines with the same integrations and one store, whose variables are the same once its values are in place. -/
structure Twin (shared : Store) (e e' : Engine σ) : Prop where
  steady : e.world.integrations.Steady
  integrations : e'.world.integrations = e.world.integrations
  store : e.world.store = shared
  store' : e'.world.store = shared
  /-- Loading from it leaves it as it is. -/
  note : ∀ access, shared.note access = shared
  definitions : ∀ id, (e'.definitions? id).map (overlaid id shared) = (e.definitions? id).map (overlaid id shared)

namespace Twin

variable {shared : Store} {s' : ScopeState}

theorem overlaid_eq (h : Twin shared e e') (hs : e.scope? id = some s) (hs' : e'.scope? id = some s') :
    overlaid id shared s'.definitions = overlaid id shared s.definitions := by
  have heq := h.definitions id
  rw [definitions?, definitions?, hs, hs'] at heq
  exact Option.some.inj heq

theorem fullPass (h : Twin shared e e') (hs : e.scope? id = some s) (hs' : e'.scope? id = some s')
    (hseed : e'.seed id = e.seed id) : (e'.fullPass id s').1 = (e.fullPass id s).1 := by
  have hsteady : (e.world.note (.load id)).integrations.Steady := h.steady
  have hintegrations : (e'.world.note (.load id)).integrations = (e.world.note (.load id)).integrations :=
    h.integrations
  rw [Engine.fullPass, Engine.fullPass, h.store, h.store', h.overlaid_eq hs hs', hseed]
  exact Resolution.resolve_fst_of_steady hsteady hintegrations _ _ _ _

theorem resolved (h : Twin shared e e') (hs : e.scope? id = some s) (hs' : e'.scope? id = some s') :
    Twin shared (e.resolved id s) (e'.resolved id s') := by
  have hset := (kept_integrations e.world.integrations).resolved e id s rfl hs
  have hset' := (kept_integrations e'.world.integrations).resolved e' id s' rfl hs'
  refine ⟨hset.symm ▸ h.steady, hset'.trans (h.integrations.trans hset.symm),
    (store_resolved _ _ _).trans (h.store ▸ h.note _), (store_resolved _ _ _).trans (h.store' ▸ h.note _), h.note,
    fun id' => ?_⟩
  rw [Engine.resolved, Engine.resolved, definitions?_setScope, definitions?_setScope]
  split
  · next hid =>
    subst hid
    rw [Engine.passed, Engine.passed, h.store, h.store', h.overlaid_eq hs hs']
  · exact h.definitions id'

theorem loadEach (h : Twin shared e e') (hglobal : e'.global.values = e.global.values) (names : List String)
    {answer answer' : List (ScopeId × Resolution) × Engine σ} (hanswer : e.loadEach (names.map .page) = .ok answer)
    (hanswer' : e'.loadEach (names.map .page) = .ok answer') : answer'.1 = answer.1 := by
  induction names generalizing e e' answer answer' with
  | nil =>
    cases hanswer
    cases hanswer'
    rfl
  | cons name names ih =>
    obtain ⟨s, rest, hs, hrest, rfl⟩ := loadEach_cons_eq_ok hanswer
    obtain ⟨s', rest', hs', hrest', rfl⟩ := loadEach_cons_eq_ok hanswer'
    have hlater := ih (h.resolved hs hs') hglobal hrest hrest'
    rw [h.fullPass hs hs' hglobal, hlater]

theorem keys (h : Twin shared e e') : e'.pages.keys = e.pages.keys := by
  -- The keys are sorted, so the same names make the same list.
  have : Std.Antisymm fun a b : String => compare a b = .lt :=
    ⟨fun a b hab hba => by rw [← Std.OrientedCmp.gt_iff_lt, hab] at hba; cases hba⟩
  have : Std.Irrefl fun a b : String => compare a b = .lt := ⟨fun a ha => by simp at ha⟩
  refine Std.ExtTreeMap.ordered_keys.eq_of_mem_iff Std.ExtTreeMap.ordered_keys fun name => ?_
  have heq := congrArg Option.isSome (h.definitions (.page name))
  rw [Option.isSome_map, Option.isSome_map, definitions?, definitions?, Option.isSome_map, Option.isSome_map] at heq
  rw [NameMap.mem_keys_iff, NameMap.mem_keys_iff, ← Option.isSome_iff_exists, ← Option.isSome_iff_exists]
  exact iff_of_eq (congrArg (· = true) heq)

theorem loadAll (h : Twin shared e e') {answer answer' : List (ScopeId × Resolution) × Engine σ}
    (hanswer : e.loadAll = .ok answer) (hanswer' : e'.loadAll = .ok answer') : answer'.1 = answer.1 := by
  rw [Engine.loadAll, scopeIds] at hanswer hanswer'
  rw [h.keys] at hanswer'
  obtain ⟨s, rest, hs, hrest, rfl⟩ := loadEach_cons_eq_ok hanswer
  obtain ⟨s', rest', hs', hrest', rfl⟩ := loadEach_cons_eq_ok hanswer'
  have hpass := h.fullPass hs hs' rfl
  -- The passes over the pages start from what the pass over the global scope gave.
  have hpages := (h.resolved hs hs').loadEach (congrArg Resolution.values hpass) _ hrest hrest'
  rw [hpass, hpages]

end Twin

theorem ofSheet_again {host : σ} {store : Store} {sheet : Sheet} (h : ofSheet host store sheet = .ok e) (host' : σ)
    (store' : Store) : ∃ e', ofSheet host' store' sheet = .ok e' ∧ e'.definitions? = e.definitions? ∧
      e'.world.integrations = e.world.integrations ∧ e.world.store = store ∧ e'.world.store = store' := by
  obtain ⟨definitions, hdefinitions, h⟩ := Parser.bind_eq_ok.1 h
  obtain ⟨pages, hpages, h⟩ := Parser.bind_eq_ok.1 h
  cases h
  refine ⟨_, Parser.bind_eq_ok.2 ⟨definitions, hdefinitions, Parser.bind_eq_ok.2 ⟨pages, hpages, rfl⟩⟩, ?_,
    rfl, rfl, rfl⟩
  funext id
  cases id <;> rfl

/-- Restarting from the store reproduces the session: a new engine with what the store holds has the same variables,
and loading both of them gives the same resolutions. -/
theorem loadAll_restart {host : σ} {state : Store.State} {sheet : Sheet}
    (h : ofSheet host (.memory state) sheet = .ok e) (requests : List Request) (host' : σ) :
    let first := (e.perform .loadAll).after requests
    ∃ second first' second' resolutions, ofSheet host' first.world.store sheet = .ok second ∧
      first.loadAll = .ok (resolutions, first') ∧ second.loadAll = .ok (resolutions, second') ∧
      ∀ id, second'.definitions? id = first.definitions? id := by
  intro first
  obtain ⟨second, hsecond, hdefinitions, hset, hstore, hstore'⟩ := ofSheet_again h host' first.world.store
  obtain ⟨state', hfirst⟩ : ∃ state, first.Backed e.definitions? state :=
    (kept_backed e.definitions?).after ⟨state, backed_loadAll hstore⟩ requests
  have hkept : first.world.integrations = e.world.integrations :=
    (kept_integrations e.world.integrations).after rfl (.loadAll :: requests)
  have hrestarted := backed_loadAll (hstore'.trans hfirst.store)
  have htwin : Twin (.memory state') first second := by
    refine ⟨hkept.symm ▸ steady_ofSheet h, hset.trans hkept.symm, hfirst.store, hstore'.trans hfirst.store,
      fun _ => rfl, fun id => ?_⟩
    rw [hdefinitions, hfirst.definitions id, Option.map_map]
    refine congrArg (fun f => Option.map f (e.definitions? id)) (funext fun d => ?_)
    exact (overlay_overlay d (state'.values id)).symm
  obtain ⟨resolutions, hload, _⟩ := loadAll_eq first
  obtain ⟨resolutions', hload', _⟩ := loadAll_eq second
  obtain rfl : resolutions' = resolutions := htwin.loadAll hload hload'
  refine ⟨second, _, _, _, hsecond, hload, hload', fun id => ?_⟩
  rw [hrestarted.definitions id, hfirst.definitions id, hdefinitions]

def market : Sheet where
  entries := [⟨"gold", some (.number 3), none, none, some 10⟩]
  pages := NameMap.ofEntries [("stall", ⟨[⟨"cost", none, some "prices.get('bread') * gold", none, none⟩], ∅, ∅⟩)]
  tables := NameMap.ofEntries [("prices", ⟨false, NameMap.ofEntries [("bread", .number 2)]⟩)]

theorem loadAll_restart_market :
    ∃ e, ofSheet () (.memory (Store.State.write ∅ .global "gold" (.number 50))) market = .ok e ∧
    let first := (e.perform .loadAll).after
      [.run .global "await addValue('gold', 5); gone", .run (.page "stall") "cost"]
    ∃ second first' second' resolutions, ofSheet () first.world.store market = .ok second ∧
      first.loadAll = .ok (resolutions, first') ∧ second.loadAll = .ok (resolutions, second') ∧
      ∀ id, second'.definitions? id = first.definitions? id := by
  have hmarket : (ofSheet () (.memory (Store.State.write ∅ .global "gold" (.number 50))) market).toBool = true := by
    decide +kernel
  cases h : ofSheet () (.memory (Store.State.write ∅ .global "gold" (.number 50))) market with
  | error fault =>
    rw [h] at hmarket
    cases hmarket
  | ok e => exact ⟨e, rfl, loadAll_restart h _ ()⟩

end Engine

end LiveSheet
