import LiveSheet.Engine.Reload
import LiveSheet.Proofs.Engine.InPlace
import LiveSheet.Proofs.Engine.Overlay
import LiveSheet.Proofs.Expr.Descent
import LiveSheet.Proofs.Resolution.Frame

/-! Sessions. Whatever is asked of an engine, it makes three kinds of moves, each in one scope: a full pass, a command
with the pass that follows it, and the refresh of a page. What every move keeps holds after every session. -/

namespace LiveSheet

inductive Request where
  | load (id : ScopeId)
  | loadAll
  | run (id : ScopeId) (script : String)
  | runNamed (id : ScopeId) (name : String)

namespace Engine

variable {σ α : Type}

def perform (e : Engine σ) : Request → Engine σ
  | .load id => ((loadInPlace id).on e).2
  | .loadAll => (loadAllInPlace.on e).2
  | .run id script => ((runInPlace id script).on e).2
  | .runNamed id name => ((runNamedInPlace id name).on e).2

def after (e : Engine σ) (requests : List Request) : Engine σ := requests.foldl perform e

section Moves

variable (e : Engine σ) (id : ScopeId) (s : ScopeState) (script name : String) (changed : NameSet)

def fullPass : Resolution × World σ :=
  Resolution.resolve (e.world.note (.load id)) id (overlaid id e.world.store s.definitions) (e.seed id) none

def passed : ScopeState :=
  { s with
    definitions := overlaid id e.world.store s.definitions
    values := (e.fullPass id s).1.values
    loaded := true }

def resolved : Engine σ := { e with world := (e.fullPass id s).2 }.setScope id (e.passed id s)

def scriptRun : CommandRun × World σ := CommandRun.run e.world id s.definitions s.values script

def follow : Propagation × Resolution × World σ :=
  let c := e.scriptRun id s script
  Propagation.propagate c.2 id c.1.definitions c.1.values c.1.invoked c.1.modified

def commanded : Engine σ :=
  { e with world := (e.follow id s script).2.2 }.setScope id
    { s with
      definitions := (e.scriptRun id s script).1.definitions
      values := (e.follow id s script).2.1.values }

/-- The values of a page with those of changed global variables that it does not declare. -/
def shown (definitions : VariableSet) (globals : NameMap Value) (changed : NameSet) (values : NameMap Value) :
    NameMap Value :=
  (changed.names.filter fun name => !definitions.contains name).foldl (fun m name => match globals[name]? with
    | some v => m.insert name v
    | none => m) values

def readers (definitions : VariableSet) (changed : NameSet) : NameSet :=
  Propagation.readersOf definitions
    (NameSet.ofNames (changed.names.filter fun name => !definitions.contains name))

def refreshPass : Resolution × World σ :=
  let values := shown s.definitions e.global.values changed s.values
  if (readers s.definitions changed).isEmpty then (⟨values, [], [], []⟩, e.world)
  else
    let g := Resolution.graph e.world s.definitions
    Resolution.ofGraph e.world (.page name) s.definitions g values
      (some (g.reverseClosure (readers s.definitions changed)))

def refreshed : Engine σ :=
  { e with world := (e.refreshPass s name changed).2 }.setScope (.page name)
    { s with values := (e.refreshPass s name changed).1.values }

end Moves

/-- What every move keeps. -/
structure Kept (I : Engine σ → Prop) : Prop where
  resolved : ∀ e id s, I e → e.scope? id = some s → I (e.resolved id s)
  commanded : ∀ e id s script, I e → e.scope? id = some s → I (e.commanded id s script)
  refreshed : ∀ e name s changed, I e → e.scope? (.page name) = some s → I (e.refreshed s name changed)

variable {e : Engine σ} {id : ScopeId} {s : ScopeState}

theorem names_overlaid (id : ScopeId) (store : Store) (definitions : VariableSet) :
    (overlaid id store definitions).names = definitions.names := by
  unfold overlaid
  split
  · exact names_overlay _ _
  · rfl

theorem names_passed (e : Engine σ) (id : ScopeId) (s : ScopeState) :
    (e.passed id s).definitions.names = s.definitions.names :=
  names_overlaid id e.world.store s.definitions

theorem resolve_eq (h : e.scope? id = some s) : e.resolve id = .ok ((e.fullPass id s).1, e.resolved id s) := by
  have hscope := scope_eq_ok.2 h
  unfold resolve
  rw [hscope]
  cases id <;> rfl

theorem resolve_eq_ok {answer : Resolution × Engine σ} (h : e.resolve id = .ok answer) :
    ∃ s, e.scope? id = some s ∧ answer = ((e.fullPass id s).1, e.resolved id s) := by
  cases hs : e.scope? id with
  | some s =>
    rw [resolve_eq hs] at h
    exact ⟨s, rfl, (Except.ok.inj h).symm⟩
  | none =>
    unfold resolve scope at h
    rw [hs] at h
    cases h

theorem loadEach_cons (h : e.scope? id = some s) {ids : List ScopeId} {answer : List (ScopeId × Resolution) × Engine σ}
    (hanswer : (e.resolved id s).loadEach ids = .ok answer) :
    e.loadEach (id :: ids) = .ok ((id, (e.fullPass id s).1) :: answer.1, answer.2) := by
  rw [loadEach]
  exact Parser.bind_eq_ok.2 ⟨_, resolve_eq h, Parser.bind_eq_ok.2 ⟨answer, hanswer, rfl⟩⟩

theorem loadEach_cons_eq_ok {ids : List ScopeId} {answer : List (ScopeId × Resolution) × Engine σ}
    (h : e.loadEach (id :: ids) = .ok answer) : ∃ s rest, e.scope? id = some s ∧
      (e.resolved id s).loadEach ids = .ok rest ∧ answer = ((id, (e.fullPass id s).1) :: rest.1, rest.2) := by
  obtain ⟨first, hfirst, h⟩ := Parser.bind_eq_ok.1 h
  obtain ⟨rest, hrest, heq⟩ := Parser.bind_eq_ok.1 h
  obtain ⟨s, hs, rfl⟩ := resolve_eq_ok hfirst
  exact ⟨s, rest, hs, hrest, (Except.ok.inj heq).symm⟩

theorem load_page {page : String} (h : e.scope? (.page page) = some s) (hloaded : e.global.loaded = true) :
    e.load (.page page) = .ok ((e.fullPass (.page page) s).1, e.resolved (.page page) s) := by
  rw [load, scope_eq_ok.2 h]
  exact (if_pos hloaded).trans (resolve_eq h)

/-- The names of global variables that a script makes the engine carry to the pages. -/
def carried (e : Engine σ) (script : String) : NameSet := NameSet.ofNames (e.follow .global e.global script).2.1.order

def ran (e : Engine σ) (id : ScopeId) (s : ScopeState) (script : String) : Engine σ :=
  match id with
  | .page name => e.commanded (.page name) s script
  | .global => (refreshPages (e.carried script) (e.commanded .global s script) e.pages.keys).2.2

def refreshedBy (e : Engine σ) (id : ScopeId) (s : ScopeState) (script : String) : List (ScopeId × String) :=
  match id with
  | .page _ => []
  | .global => (refreshPages (e.carried script) (e.commanded .global s script) e.pages.keys).1

theorem run_eq (hs : e.scope? id = some s) (script : String) :
    ∃ outcome, e.run id script = .ok (outcome, e.ran id s script) ∧
      outcome.recomputed = (e.follow id s script).2.1.order ∧ outcome.refreshed = e.refreshedBy id s script := by
  cases id with
  | page name =>
    unfold run
    rw [scope_eq_ok.2 hs]
    exact ⟨_, rfl, rfl, rfl⟩
  | global =>
    cases hs
    exact ⟨_, rfl, rfl, rfl⟩

theorem run_eq_error (hs : e.scope? id = none) (script : String) : e.run id script = .error (.unknownScope id.text) := by
  rw [run, scope_eq_error hs]
  rfl

theorem run_eq_ok {script : String} {answer : Outcome × Engine σ} (h : e.run id script = .ok answer) :
    ∃ s, e.scope? id = some s ∧ answer.2 = e.ran id s script := by
  cases hs : e.scope? id with
  | none => cases (run_eq_error hs script).symm.trans h
  | some s =>
    obtain ⟨outcome, hrun, _⟩ := run_eq hs script
    cases hrun.symm.trans h
    exact ⟨s, rfl, rfl⟩

theorem perform_load (e : Engine σ) (id : ScopeId) : e.perform (.load id) = (e.answered (e.load id)).2 :=
  congrArg Prod.snd (on_loadInPlace id e)

theorem perform_loadAll (e : Engine σ) : e.perform .loadAll = (e.answered e.loadAll).2 :=
  congrArg Prod.snd (on_loadAllInPlace e)

theorem perform_run (e : Engine σ) (id : ScopeId) (script : String) :
    e.perform (.run id script) = (e.answered (e.run id script)).2 :=
  congrArg Prod.snd (on_runInPlace id script e)

theorem perform_runNamed (e : Engine σ) (id : ScopeId) (name : String) : e.perform (.runNamed id name) = e ∨
    ∃ script, e.perform (.runNamed id name) = e.perform (.run id script) := by
  have hnamed : e.perform (.runNamed id name) = (e.answered (e.runNamed id name)).2 :=
    congrArg Prod.snd (on_runNamedInPlace id name e)
  rw [hnamed, runNamed]
  cases hs : e.scope? id with
  | none =>
    rw [scope_eq_error hs]
    exact .inl rfl
  | some s =>
    rw [scope_eq_ok.2 hs, ok_bind]
    cases s.commands[name]? with
    | none => exact .inl rfl
    | some script => exact .inr ⟨script, (perform_run e id script).symm⟩

theorem refreshPage_eq (e : Engine σ) (s : ScopeState) (name : String) (changed : NameSet) :
    refreshPage e.world (.page name) e.global.values changed s =
      ({ s with values := (e.refreshPass s name changed).1.values }, (e.refreshPass s name changed).1.order,
        (e.refreshPass s name changed).1.diagnostics, (e.refreshPass s name changed).2) := by
  unfold refreshPage refreshPass
  by_cases hreaders : (readers s.definitions changed).isEmpty = true
  · simp only [hreaders, if_true]
    exact if_pos hreaders
  · simp only [hreaders]
    exact if_neg hreaders

theorem refreshPages_cons {name : String} (changed : NameSet) {names : List String} (h : e.pages[name]? = some s)
    (hloaded : s.loaded = true) : (refreshPages changed e (name :: names)).2.2 =
      (refreshPages changed (e.refreshed s name changed) names).2.2 := by
  simp only [refreshPages, h, hloaded, if_true, refreshPage_eq, refreshed]

theorem refreshPages_skip {name : String} (changed : NameSet) {names : List String}
    (h : ∀ s, e.pages[name]? = some s → s.loaded = false) :
    refreshPages changed e (name :: names) = refreshPages changed e names := by
  cases hs : e.pages[name]? with
  | none => simp only [refreshPages, hs]
  | some s => simp only [refreshPages, hs, h s hs, Bool.false_eq_true, if_false]

theorem get?_shown (definitions : VariableSet) (globals : NameMap Value) (changed : NameSet) (values : NameMap Value)
    (n : String) : (shown definitions globals changed values)[n]? =
      if n ∈ changed ∧ n ∉ definitions.names then globals[n]?.or values[n]? else values[n]? := by
  have hfold : ∀ (names : List String) (values : NameMap Value),
      (names.foldl (fun m name => match globals[name]? with
        | some v => m.insert name v
        | none => m) values)[n]? = if n ∈ names then globals[n]?.or values[n]? else values[n]? := by
    intro names
    induction names with
    | nil => simp
    | cons a names ih =>
      intro values
      rw [List.foldl_cons, ih]
      by_cases ha : a = n
      · subst ha
        cases hv : globals[a]? with
        | none => simp
        | some v => simp
      · have hsame : ∀ v, (values.insert a v)[n]? = values[n]? := fun v =>
          (NameMap.get?_insert _ _ _ _).trans (if_neg ha)
        cases hv : globals[a]? with
        | none => simp [Ne.symm ha]
        | some v => simp [Ne.symm ha, hsame]
  rw [shown, hfold]
  simp only [List.mem_filter, NameSet.mem_names, VariableSet.contains_eq, Bool.not_eq_true', List.contains_eq_mem,
    decide_eq_false_iff_not]

section

variable (e id s) (script name : String) (changed : NameSet)

theorem settled_fullPass : Resolution.Settled id (e.fullPass id s).1.order (e.seed id) (e.fullPass id s).1.values
    e.world (e.fullPass id s).2 where
  -- To load the stored values is no event, and neither changes the integrations.
  integrations := (Resolution.settled_resolve id _ (e.world.note (.load id)) _).integrations
  told := (Resolution.settled_resolve _ _ _ _).told
  kept := (Resolution.settled_resolve _ _ _ _).kept
  untold := (Resolution.settled_resolve _ _ (e.world.note (.load id)) _).untold

theorem mem_order_fullPass (n : String) : n ∈ (e.fullPass id s).1.order ↔ n ∈ s.definitions.names := by
  rw [← names_overlaid id e.world.store s.definitions]
  exact Resolution.mem_order_resolve _ _ _ _ n

theorem overwritten_scriptRun : CommandRun.Overwritten s.definitions s.values (e.scriptRun id s script).1.definitions
    (e.scriptRun id s script).1.values (e.scriptRun id s script).1.modified :=
  CommandRun.overwritten _ _ _ _ _

theorem settled_scriptRun : Resolution.Settled id (e.scriptRun id s script).1.modified.names s.values
    (e.scriptRun id s script).1.values e.world (e.scriptRun id s script).2 :=
  CommandRun.settled_run _ _ _ _ _

theorem settled_follow : Resolution.Settled id (e.follow id s script).2.1.order (e.scriptRun id s script).1.values
    (e.follow id s script).2.1.values (e.scriptRun id s script).2 (e.follow id s script).2.2 :=
  Propagation.settled_propagate _ _ _ _ _ _

theorem settled_refreshPass : Resolution.Settled (.page name) (e.refreshPass s name changed).1.order
    (shown s.definitions e.global.values changed s.values) (e.refreshPass s name changed).1.values e.world
    (e.refreshPass s name changed).2 := by
  unfold refreshPass
  split
  · exact .nil _ _
  · exact Resolution.settled_ofGraph _ _ _ _ _ _

theorem order_refreshPass_subset : ∀ n ∈ (e.refreshPass s name changed).1.order, n ∈ s.definitions.names := by
  unfold refreshPass
  split
  · simp
  · exact Resolution.order_ofGraph_subset _ _ _

theorem store_refreshPass : (e.refreshPass s name changed).2.store = e.world.store := by
  unfold refreshPass
  split
  · rfl
  · exact Resolution.store_ofGraph _ _ _ _ _ _

theorem tells_refreshPass : Resolution.Tells e.world (e.refreshPass s name changed).2 := by
  unfold refreshPass
  split
  · exact .refl _
  · exact Resolution.tells_ofGraph _ _ _ _ _ _

end

theorem refreshPages_preserves {I : Engine σ → Prop} (changed : NameSet)
    (hrefreshed : ∀ e name s, I e → e.scope? (.page name) = some s → I (e.refreshed s name changed))
    (names : List String) (he : I e) : I (refreshPages changed e names).2.2 := by
  induction names generalizing e with
  | nil => exact he
  | cons name names ih =>
    by_cases hpage : ∃ s, e.pages[name]? = some s ∧ s.loaded = true
    · obtain ⟨s, hs, hloaded⟩ := hpage
      rw [refreshPages_cons changed hs hloaded]
      exact ih (hrefreshed e name s he hs)
    · rw [refreshPages_skip changed fun s hs => Bool.eq_false_iff.2 fun hloaded => hpage ⟨s, hs, hloaded⟩]
      exact ih he

namespace Kept

variable {I : Engine σ → Prop} (h : Kept I)
include h

theorem resolve {answer : Resolution × Engine σ} (he : I e) (hanswer : e.resolve id = .ok answer) : I answer.2 := by
  obtain ⟨s, hs, rfl⟩ := resolve_eq_ok hanswer
  exact h.resolved e id s he hs

theorem loadEach {ids : List ScopeId} {answer : List (ScopeId × Resolution) × Engine σ} (he : I e)
    (hanswer : e.loadEach ids = .ok answer) : I answer.2 := by
  induction ids generalizing e answer with
  | nil =>
    cases hanswer
    exact he
  | cons id ids ih =>
    obtain ⟨s, rest, hs, hrest, rfl⟩ := loadEach_cons_eq_ok hanswer
    have hlast := ih (h.resolved e id s he hs) hrest
    exact hlast

theorem load {answer : Resolution × Engine σ} (he : I e) (hanswer : e.load id = .ok answer) : I answer.2 := by
  obtain ⟨s, hs, hanswer⟩ := Parser.bind_eq_ok.1 hanswer
  cases id with
  | global => exact h.resolve he hanswer
  | page name =>
    by_cases hloaded : e.global.loaded = true
    · simp only [hloaded, if_true] at hanswer
      exact h.resolve he hanswer
    · simp only [hloaded] at hanswer
      obtain ⟨first, hfirst, hanswer⟩ := Parser.bind_eq_ok.1 hanswer
      exact h.resolve (h.resolve he hfirst) hanswer

theorem ran (he : I e) (hs : e.scope? id = some s) (script : String) : I (e.ran id s script) := by
  have hcommanded := h.commanded e id s script he hs
  cases id with
  | page name => exact hcommanded
  | global => exact refreshPages_preserves _ (fun e name s => h.refreshed e name s _) _ hcommanded

theorem run {script : String} {answer : Outcome × Engine σ} (he : I e) (hanswer : e.run id script = .ok answer) :
    I answer.2 := by
  obtain ⟨s, hs, heq⟩ := run_eq_ok hanswer
  rw [heq]
  exact h.ran he hs script

theorem perform (he : I e) (request : Request) : I (e.perform request) := by
  have hanswered : ∀ {α : Type} (answer : Except SheetError (α × Engine σ)), (∀ a, answer = .ok a → I a.2) →
      I (e.answered answer).2 := by
    intro α answer hanswer
    cases answer with
    | error _ => exact he
    | ok a => exact hanswer a rfl
  cases request with
  | load id =>
    rw [perform_load]
    exact hanswered _ fun _ => h.load he
  | loadAll =>
    rw [perform_loadAll]
    exact hanswered _ fun _ => h.loadEach he
  | run id script =>
    rw [perform_run]
    exact hanswered _ fun _ => h.run he
  | runNamed id name =>
    rcases perform_runNamed e id name with hsame | ⟨script, hscript⟩
    · rwa [hsame]
    · rw [hscript, perform_run]
      exact hanswered _ fun _ => h.run he

theorem after (he : I e) (requests : List Request) : I (e.after requests) := by
  induction requests generalizing e with
  | nil => exact he
  | cons request requests ih => exact ih (h.perform he request)

end Kept

theorem kept_names (id : ScopeId) (names : List String) :
    Kept fun e : Engine σ => ∃ s, e.scope? id = some s ∧ s.definitions.names = names := by
  have hmove : ∀ (e : Engine σ) (world : World σ) (id' : ScopeId) (s s' : ScopeState),
      (∃ s, e.scope? id = some s ∧ s.definitions.names = names) → e.scope? id' = some s →
      s'.definitions.names = s.definitions.names →
      ∃ s, ({ e with world }.setScope id' s').scope? id = some s ∧ s.definitions.names = names := by
    rintro e world id' s s' ⟨t, ht, hnames⟩ hs hsame
    rw [scope?_setScope, scope?_mk]
    split
    · next hid =>
      subst hid
      obtain rfl : s = t := Option.some.inj (hs.symm.trans ht)
      exact ⟨s', rfl, hsame.trans hnames⟩
    · exact ⟨t, ht, hnames⟩
  refine ⟨fun e id' s h hs => ?_, fun e id' s script h hs => ?_, fun e name s changed h hs => ?_⟩
  · exact hmove e _ id' s _ h hs (names_passed e id' s)
  · exact hmove e _ id' s _ h hs (overwritten_scriptRun e id' s script).names_eq
  · exact hmove e _ (.page name) s _ h hs rfl

theorem kept_integrations (set : IntegrationSet σ) : Kept fun e : Engine σ => e.world.integrations = set where
  resolved e id s h _ := by
    rw [Engine.resolved, world_setScope]
    exact (settled_fullPass e id s).integrations.trans h
  commanded e id s script h _ := by
    rw [Engine.commanded, world_setScope]
    exact ((settled_scriptRun e id s script).append (settled_follow e id s script)).integrations.trans h
  refreshed e name s changed h _ := (settled_refreshPass e s name changed).integrations.trans h

end Engine

end LiveSheet
