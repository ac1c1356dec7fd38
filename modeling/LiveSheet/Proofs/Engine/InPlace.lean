import LiveSheet.Engine.Run

/-! Engines are changed in place, one change after the other. A request that fails has changed nothing, and any other
one leaves the engine that it gives. -/

namespace LiveSheet.Engine

variable {σ α β : Type}

/-- A change of an engine in place. What was changed before a failure stays changed. -/
abbrev InPlace (σ α : Type) := ExceptT SheetError (StateM (Engine σ)) α

namespace InPlace

def on (m : InPlace σ α) (e : Engine σ) : Except SheetError α × Engine σ := m.run.run e

theorem on_bind (m : InPlace σ α) (f : α → InPlace σ β) (e : Engine σ) : (m >>= f).on e = match m.on e with
    | (.ok a, e') => (f a).on e'
    | (.error fault, e') => (.error fault, e') := by
  unfold on ExceptT.run StateT.run
  simp only [bind, ExceptT.bind, ExceptT.mk, StateT.bind, ExceptT.bindCont]
  cases m e with
  | mk result e' => cases result <;> rfl

theorem on_lift (x : Except SheetError α) (e : Engine σ) : (liftM x : InPlace σ α).on e = (x, e) := by
  cases x <;> rfl

theorem on_get (e : Engine σ) : (get : InPlace σ (Engine σ)).on e = (.ok e, e) := rfl

theorem on_forM {f : α → InPlace σ Unit} {g : Engine σ → α → Engine σ} (h : ∀ a e, (f a).on e = (.ok (), g e a))
    (as : List α) (e : Engine σ) : (as.forM f).on e = (.ok (), as.foldl g e) := by
  induction as generalizing e with
  | nil => rfl
  | cons a as ih =>
    change (f a >>= fun _ => as.forM f).on e = _
    rw [on_bind, h]
    exact ih (g e a)

end InPlace

def resolveInPlace (id : ScopeId) : InPlace σ Resolution := do
  let s ← (← get).scope id
  let definitions := overlaid id (← get).world.store s.definitions
  modify fun e => { e with world := e.world.note (.load id) }.setScope id { s with definitions }
  let (resolution, world) := Resolution.resolve (← get).world id definitions ((← get).seed id) none
  modify fun e => { e with world }.setScope id { s with definitions, values := resolution.values, loaded := true }
  return resolution

def loadInPlace (id : ScopeId) : InPlace σ Resolution := do
  let _ ← (← get).scope id
  match id with
  | .global => resolveInPlace .global
  | .page _ =>
    if (← get).global.loaded then resolveInPlace id
    else
      let _ ← resolveInPlace .global
      resolveInPlace id

def loadEachInPlace : List ScopeId → InPlace σ (List (ScopeId × Resolution))
  | [] => pure []
  | id :: ids => do
    let resolution ← resolveInPlace id
    let resolutions ← loadEachInPlace ids
    return (id, resolution) :: resolutions

def loadAllInPlace : InPlace σ (List (ScopeId × Resolution)) := do loadEachInPlace (← get).scopeIds

def runInPlace (id : ScopeId) (script : String) : InPlace σ Outcome := do
  let s ← (← get).scope id
  let (run, world) := CommandRun.run (← get).world id s.definitions s.values script
  modify fun e => { e with world }.setScope id { s with definitions := run.definitions, values := run.values }
  let (plan, resolution, world) :=
    Propagation.propagate (← get).world id run.definitions run.values run.invoked run.modified
  modify fun e => { e with world }.setScope id
    { s with definitions := run.definitions, values := resolution.values }
  let outcome := Outcome.of run plan resolution
  match id with
  | .page _ => return outcome
  | .global =>
    let (refreshed, diagnostics, e) := refreshPages (NameSet.ofNames resolution.order) (← get) (← get).pages.keys
    set e
    return outcome.refresh refreshed diagnostics

def runNamedInPlace (id : ScopeId) (name : String) : InPlace σ Outcome := do
  let s ← (← get).scope id
  match s.commands[name]? with
  | some script => runInPlace id script
  | none => throw (.definition name (.noCommand id.text))

variable {e : Engine σ} {id : ScopeId} {s : ScopeState}

theorem scope_eq_ok : e.scope id = .ok s ↔ e.scope? id = some s := by
  unfold scope
  cases e.scope? id <;> simp

theorem scope_eq_error (h : e.scope? id = none) : e.scope id = .error (.unknownScope id.text) := by
  rw [scope, h]

@[simp] theorem scope?_setScope (e : Engine σ) (id id' : ScopeId) (s : ScopeState) :
    (e.setScope id s).scope? id' = if id = id' then some s else e.scope? id' := by
  cases id with
  | global => cases id' <;> rfl
  | page name =>
    cases id' with
    | global => rfl
    | page name' =>
      change (e.pages.insert name s)[name']? = _
      rw [NameMap.get?_insert]
      simp only [ScopeId.page.injEq]
      rfl

theorem world_setScope (e : Engine σ) (id : ScopeId) (s : ScopeState) : (e.setScope id s).world = e.world := by
  cases id <;> rfl

theorem scope?_mk (e : Engine σ) (world : World σ) (id : ScopeId) : { e with world }.scope? id = e.scope? id := by
  cases id <;> rfl

theorem setScope_setScope (e : Engine σ) (world world' : World σ) (id : ScopeId) (s s' : ScopeState) :
    { ({ e with world }.setScope id s) with world := world' }.setScope id s' =
      { e with world := world' }.setScope id s' := by
  cases id with
  | global => rfl
  | page name =>
    have hpages : (e.pages.insert name s).insert name s' = e.pages.insert name s' := by
      refine Std.ExtTreeMap.ext_getElem? fun n => ?_
      rw [NameMap.get?_insert, NameMap.get?_insert, NameMap.get?_insert]
      split <;> rfl
    exact congrArg (fun pages => (⟨world', e.global, pages, e.tables⟩ : Engine σ)) hpages

/-- An answer and the engine it leaves, which is as it was if the answer is a failure. -/
def answered (e : Engine σ) : Except SheetError (α × Engine σ) → Except SheetError α × Engine σ
  | .ok (a, e') => (.ok a, e')
  | .error fault => (.error fault, e)

theorem on_resolveInPlace (id : ScopeId) (e : Engine σ) : (resolveInPlace id).on e = e.answered (e.resolve id) := by
  rw [resolveInPlace, InPlace.on_bind, InPlace.on_get, resolve]
  simp only
  rw [InPlace.on_bind, InPlace.on_lift]
  cases hs : e.scope id with
  | error fault => rfl
  | ok s =>
    cases id with
    | global => rfl
    | page name => exact congrArg (Prod.mk _) (setScope_setScope e _ _ (.page name) _ _)

theorem resolve_isOk (h : e.scope? id = some s) : ∃ resolution world s', e.resolve id =
    .ok (resolution, { e with world }.setScope id s') := by
  rw [resolve, scope_eq_ok.2 h]
  exact ⟨_, _, _, rfl⟩

theorem ok_bind (a : α) (f : α → Except SheetError β) : (Except.ok a >>= f) = f a := rfl

theorem on_loadInPlace (id : ScopeId) (e : Engine σ) : (loadInPlace id).on e = e.answered (e.load id) := by
  unfold loadInPlace load
  rw [InPlace.on_bind, InPlace.on_get]
  simp only
  rw [InPlace.on_bind, InPlace.on_lift]
  cases hs : e.scope id with
  | error fault => rfl
  | ok s =>
    rw [ok_bind]
    cases id with
    | global => exact on_resolveInPlace .global e
    | page name =>
      simp only
      rw [InPlace.on_bind, InPlace.on_get]
      simp only
      by_cases hloaded : e.global.loaded = true
      · rw [if_pos hloaded, if_pos hloaded]
        exact on_resolveInPlace (.page name) e
      · -- The pass over the global scope leaves the page, so the one over the page cannot fail either.
        have hglobal : e.scope? .global = some e.global := rfl
        obtain ⟨resolution, world, s', hresolve⟩ := resolve_isOk hglobal
        have hpage : ({ e with world }.setScope .global s').scope? (.page name) = some s := by
          rw [scope?_setScope, if_neg ScopeId.noConfusion, scope?_mk, scope_eq_ok.1 hs]
        obtain ⟨resolution', world', s'', hresolve'⟩ := resolve_isOk hpage
        rw [if_neg hloaded, if_neg hloaded, InPlace.on_bind, on_resolveInPlace, hresolve, ok_bind]
        simp only [answered]
        rw [on_resolveInPlace, hresolve']
        rfl

theorem on_loadEachInPlace {ids : List ScopeId} (h : ∀ id ∈ ids, ∃ s, e.scope? id = some s) :
    ∃ resolutions e', e.loadEach ids = .ok (resolutions, e') ∧
      (loadEachInPlace ids).on e = (.ok resolutions, e') := by
  induction ids generalizing e with
  | nil => exact ⟨[], e, rfl, rfl⟩
  | cons id ids ih =>
    obtain ⟨⟨s, hs⟩, hids⟩ := List.forall_mem_cons.1 h
    obtain ⟨resolution, world, s', hresolve⟩ := resolve_isOk hs
    have hlater : ∀ id' ∈ ids, ∃ s, ({ e with world }.setScope id s').scope? id' = some s := by
      intro id' hid'
      rw [scope?_setScope, scope?_mk]
      split
      · exact ⟨s', rfl⟩
      · exact hids id' hid'
    obtain ⟨resolutions, e', hload, hloaded⟩ := ih hlater
    refine ⟨(id, resolution) :: resolutions, e', ?_, ?_⟩
    · rw [loadEach, hresolve, ok_bind]
      simp only
      rw [hload]
      rfl
    · rw [loadEachInPlace, InPlace.on_bind, on_resolveInPlace, hresolve]
      simp only [answered]
      rw [InPlace.on_bind, hloaded]
      rfl

theorem scope?_of_mem_scopeIds (h : id ∈ e.scopeIds) : ∃ s, e.scope? id = some s := by
  rcases List.mem_cons.1 h with rfl | h
  · exact ⟨e.global, rfl⟩
  · obtain ⟨name, hname, rfl⟩ := List.mem_map.1 h
    exact (NameMap.mem_keys_iff e.pages name).1 hname

theorem on_loadAllInPlace (e : Engine σ) : loadAllInPlace.on e = e.answered e.loadAll := by
  obtain ⟨resolutions, e', hload, hloaded⟩ := on_loadEachInPlace fun _ => scope?_of_mem_scopeIds (e := e)
  rw [loadAllInPlace, InPlace.on_bind, InPlace.on_get, loadAll, hload]
  exact hloaded

/-- A command in place comes to the same, and one that cannot be run has changed nothing. -/
theorem on_runInPlace (id : ScopeId) (script : String) (e : Engine σ) :
    (runInPlace id script).on e = e.answered (e.run id script) := by
  unfold runInPlace run
  rw [InPlace.on_bind, InPlace.on_get]
  simp only
  rw [InPlace.on_bind, InPlace.on_lift]
  cases hs : e.scope id with
  | error fault => rfl
  | ok s =>
    cases id with
    | global => rfl
    | page name => exact congrArg (Prod.mk _) (setScope_setScope e _ _ (.page name) _ _)

theorem on_runNamedInPlace (id : ScopeId) (name : String) (e : Engine σ) :
    (runNamedInPlace id name).on e = e.answered (e.runNamed id name) := by
  unfold runNamedInPlace runNamed
  rw [InPlace.on_bind, InPlace.on_get]
  simp only
  rw [InPlace.on_bind, InPlace.on_lift]
  cases hs : e.scope id with
  | error fault => rfl
  | ok s =>
    rw [ok_bind]
    simp only
    cases s.commands[name]? with
    | none => rfl
    | some script => exact on_runInPlace id script e

end LiveSheet.Engine
