import LiveSheet.Proofs.Engine.Loading
import LiveSheet.Proofs.Propagation.Incremental

/-! Pages see the current global variables. A command in the global scope leaves every page behind, but only by the
names that were evaluated again, and these are carried to one page after the other. -/

namespace LiveSheet.Engine

variable {σ : Type} {e : Engine σ} {s : ScopeState} {page : String} {lag lag' : String → String → Prop}

/-- The global scope is resolved, and the loaded pages see its variables, but for the names by which a page lags. -/
structure Current (lag : String → String → Prop) (e : Engine σ) : Prop where
  loaded : e.global.loaded = true
  valued : ∀ n ∈ e.global.definitions.names, ∃ v, e.global.values[n]? = some v
  seen : ∀ page s, e.pages[page]? = some s → ∀ n ∈ e.global.definitions.names, n ∉ s.definitions.names →
    ¬lag page n → s.values[n]? = e.global.values[n]?

def Loaded (unloaded : String → Prop) (e : Engine σ) : Prop :=
  ∀ page s, e.pages[page]? = some s → ¬unloaded page → s.loaded = true

theorem mem_order_follow (e : Engine σ) (id : ScopeId) (s : ScopeState) (script : String) {n : String}
    (hn : n ∈ (e.scriptRun id s script).1.modified) : n ∈ (e.follow id s script).2.1.order :=
  Propagation.mem_order_propagate _ _ _ _ _ _ hn ((overwritten_scriptRun e id s script).mem_names_of_mem hn)

theorem follow_kept (e : Engine σ) (id : ScopeId) (s : ScopeState) (script : String) {n : String}
    (hn : n ∉ (e.follow id s script).2.1.order) : (e.follow id s script).2.1.values[n]? = s.values[n]? :=
  ((settled_follow e id s script).kept n hn).trans
    ((overwritten_scriptRun e id s script).value_eq n (mt (mem_order_follow e id s script) hn))

namespace Current

theorem mono (h : Current lag e) (hlag : ∀ page s n, e.pages[page]? = some s → lag page n → lag' page n) :
    Current lag' e where
  loaded := h.loaded
  valued := h.valued
  seen page s hs n hn hown hseen := h.seen page s hs n hn hown (mt (hlag page s n hs) hseen)

theorem setPage (h : Current lag e) (world : World σ) {s' : ScopeState}
    (hseen : ∀ n ∈ e.global.definitions.names, n ∉ s'.definitions.names → s'.values[n]? = e.global.values[n]?) :
    Current (fun p n => p ≠ page ∧ lag p n) ({ e with world }.setScope (.page page) s') where
  loaded := h.loaded
  valued := h.valued
  seen page' t ht n hn hown hlag := by
    change (e.pages.insert page s')[page']? = some t at ht
    rw [NameMap.get?_insert] at ht
    split at ht
    · obtain rfl := Option.some.inj ht
      exact hseen n hn hown
    · next hne => exact h.seen page' t ht n hn hown fun h => hlag ⟨Ne.symm hne, h⟩

theorem resolved_page (h : Current lag e) (s : ScopeState) :
    Current (fun p n => p ≠ page ∧ lag p n) (e.resolved (.page page) s) := by
  refine h.setPage _ fun n _ hown => (settled_fullPass e (.page page) s).kept n fun horder => hown ?_
  rw [names_passed]
  exact (mem_order_fullPass e (.page page) s n).1 horder

theorem commanded_page (h : Current (fun _ _ => False) e) (hs : e.scope? (.page page) = some s) (script : String) :
    Current (fun _ _ => False) (e.commanded (.page page) s script) := by
  have hwritten := overwritten_scriptRun e (.page page) s script
  refine (h.setPage _ fun n hn hown => ?_).mono fun _ _ _ _ hlag => hlag.2
  have horder : n ∉ (e.follow (.page page) s script).2.1.order :=
    mt (Propagation.order_propagate_subset _ _ _ _ _ _ n) hown
  exact (follow_kept e _ s script horder).trans (h.seen page s hs n hn (hwritten.names_eq ▸ hown) id)

theorem refreshed {behind : String → Prop} {changed : NameSet} (h : Current (fun p n => behind p ∧ n ∈ changed) e)
    (hs : e.scope? (.page page) = some s) :
    Current (fun p n => (p ≠ page ∧ behind p) ∧ n ∈ changed) (e.refreshed s page changed) := by
  refine (h.setPage _ fun n hn hown => ?_).mono fun _ _ _ _ hlag => ⟨⟨hlag.1, hlag.2.1⟩, hlag.2.2⟩
  have horder : n ∉ (e.refreshPass s page changed).1.order := mt (order_refreshPass_subset e s page changed n) hown
  refine ((settled_refreshPass e s page changed).kept n horder).trans ?_
  rw [get?_shown]
  by_cases hchanged : n ∈ changed
  · obtain ⟨v, hv⟩ := h.valued n hn
    rw [if_pos ⟨hchanged, hown⟩, hv, Option.some_or]
  · rw [if_neg fun h => hchanged h.1]
    exact h.seen page s hs n hn hown fun h => hchanged h.2

theorem commanded_global (h : Current (fun _ _ => False) e) (script : String) :
    Current (fun _ n => n ∈ e.carried script) (e.commanded .global e.global script) := by
  have hwritten := overwritten_scriptRun e .global e.global script
  refine ⟨h.loaded, fun n hn => ?_, fun page s hs n hn hown hlag => ?_⟩
  · by_cases horder : n ∈ (e.follow .global e.global script).2.1.order
    · obtain ⟨v, hv, _⟩ := (settled_follow e .global e.global script).told n horder
      exact ⟨v, hv⟩
    · obtain ⟨v, hv⟩ := h.valued n (hwritten.names_eq ▸ hn)
      exact ⟨v, (follow_kept e .global e.global script horder).trans hv⟩
  · rw [carried, NameSet.mem_ofNames] at hlag
    exact (h.seen page s hs n (hwritten.names_eq ▸ hn) hown id).trans (follow_kept e .global e.global script hlag).symm

end Current

namespace Loaded

variable {unloaded : String → Prop}

theorem setPage (h : Loaded unloaded e) (world : World σ) {s' : ScopeState} (hs' : s'.loaded = true) :
    Loaded (fun p => p ≠ page ∧ unloaded p) ({ e with world }.setScope (.page page) s') := by
  intro page' t ht hpage
  change (e.pages.insert page s')[page']? = some t at ht
  rw [NameMap.get?_insert] at ht
  split at ht
  · exact Option.some.inj ht ▸ hs'
  · next hne => exact h page' t ht fun h => hpage ⟨Ne.symm hne, h⟩

theorem mono {unloaded' : String → Prop} (h : Loaded unloaded e)
    (hpages : ∀ page s, e.pages[page]? = some s → unloaded page → unloaded' page) : Loaded unloaded' e :=
  fun page s hs hpage => h page s hs (mt (hpages page s hs) hpage)

end Loaded

/-- Every page is loaded and sees the global scope as it is. -/
def UpToDate (e : Engine σ) : Prop := Current (fun _ _ => False) e ∧ Loaded (fun _ => False) e

namespace UpToDate

theorem refreshPages {changed : NameSet} {names : List String} (h : Current (fun p n => p ∈ names ∧ n ∈ changed) e)
    (hloaded : Loaded (fun _ => False) e) : (Engine.refreshPages changed e names).2.2.UpToDate := by
  -- The pages that lag are among those still to come, so at the end of the list none does.
  induction names generalizing e with
  | nil => exact ⟨h.mono fun _ _ _ _ hlag => List.not_mem_nil hlag.1, hloaded⟩
  | cons page names ih =>
    cases hs : e.pages[page]? with
    | none =>
      rw [refreshPages_skip changed fun s hs' => by rw [hs] at hs'; cases hs']
      refine ih (h.mono fun page' s n hs' hlag => ⟨(List.mem_cons.1 hlag.1).resolve_left ?_, hlag.2⟩) hloaded
      rintro rfl
      rw [hs] at hs'
      cases hs'
    | some s =>
      have hs' := hloaded page s hs id
      rw [refreshPages_cons changed hs hs']
      have hcaught : Current (fun p n => p ∈ names ∧ n ∈ changed) (e.refreshed s page changed) :=
        (h.refreshed hs).mono fun _ _ _ _ hlag => ⟨(List.mem_cons.1 hlag.1.2).resolve_left hlag.1.1, hlag.2⟩
      refine ih hcaught ((hloaded.setPage _ ?_).mono fun _ _ _ h => h.2)
      exact hs'

theorem resolved_page (h : e.UpToDate) (s : ScopeState) : (e.resolved (.page page) s).UpToDate :=
  ⟨(h.1.resolved_page s).mono fun _ _ _ _ hlag => hlag.2, (h.2.setPage _ rfl).mono fun _ _ _ h => h.2⟩

theorem run (h : e.UpToDate) (id : ScopeId) (script : String) : (e.perform (.run id script)).UpToDate := by
  cases hs : e.scope? id with
  | none =>
    rw [perform_run, run_eq_error hs]
    exact h
  | some s =>
    obtain ⟨outcome, hrun, _⟩ := run_eq hs script
    rw [perform_run, hrun]
    cases id with
    | global =>
      cases hs
      refine refreshPages ((h.1.commanded_global script).mono fun page s n hs hlag => ⟨?_, hlag⟩) h.2
      exact (NameMap.mem_keys_iff _ _).2 ⟨s, hs⟩
    | page name =>
      refine ⟨h.1.commanded_page hs script, (h.2.setPage _ ?_).mono fun _ _ _ h => h.2⟩
      exact h.2 name s hs id

theorem load (h : e.UpToDate) (page : String) : (e.perform (.load (.page page))).UpToDate := by
  cases hs : e.scope? (.page page) with
  | none =>
    rw [perform_load, Engine.load, scope_eq_error hs]
    exact h
  | some s =>
    rw [perform_load, load_page hs h.1.loaded]
    exact h.resolved_page s

theorem loadAll (e : Engine σ) : (e.perform .loadAll).UpToDate := by
  obtain ⟨_, _, hpages⟩ := loadAll_eq e
  have hpage : ∀ page s, (e.perform .loadAll).pages[page]? = some s →
      ∃ (e₁ : Engine σ) (t : ScopeState), e₁.global = (e.perform .loadAll).global ∧ s = e₁.passed (.page page) t := by
    intro page s hs
    by_cases hmem : page ∈ e.pages.keys
    · obtain ⟨t, ht⟩ := (NameMap.mem_keys_iff _ _).1 hmem
      obtain ⟨e₁, halong, hloaded⟩ := hpages.loaded page hmem t ht
      exact ⟨e₁, t, halong.global.trans hpages.global.symm, Option.some.inj (hs.symm.trans hloaded)⟩
    · rw [hpages.others page hmem] at hs
      exact absurd ((NameMap.mem_keys_iff _ _).2 ⟨s, hs⟩) hmem
  refine ⟨⟨?_, fun n hn => ?_, fun page s hs n _ hown _ => ?_⟩, fun page s hs _ => ?_⟩
  · rw [global_loadAll]
    rfl
  · rw [global_loadAll] at hn ⊢
    rw [names_passed] at hn
    obtain ⟨v, hv, _⟩ := (settled_fullPass e .global e.global).told n ((mem_order_fullPass _ _ _ n).2 hn)
    exact ⟨v, hv⟩
  · obtain ⟨e₁, t, hglobal, rfl⟩ := hpage page s hs
    rw [← hglobal]
    refine (settled_fullPass e₁ (.page page) t).kept n fun horder => hown ?_
    rw [names_passed]
    exact (mem_order_fullPass _ _ _ n).1 horder
  · obtain ⟨e₁, t, _, rfl⟩ := hpage page s hs
    rfl

theorem perform (h : e.UpToDate) {request : Request} (hrequest : request ≠ .load .global) :
    (e.perform request).UpToDate := by
  cases request with
  | load id =>
    cases id with
    | global => exact absurd rfl hrequest
    | page page => exact h.load page
  | loadAll => exact loadAll e
  | run id script => exact h.run id script
  | runNamed id name =>
    rcases perform_runNamed e id name with hsame | ⟨script, hscript⟩
    · rwa [hsame]
    · rw [hscript]
      exact h.run id script

theorem after (h : e.UpToDate) {requests : List Request} (hrequests : ∀ r ∈ requests, r ≠ .load .global) :
    (e.after requests).UpToDate := by
  induction requests generalizing e with
  | nil => exact h
  | cons request requests ih =>
    obtain ⟨hrequest, hrequests⟩ := List.forall_mem_cons.1 hrequests
    exact ih (h.perform hrequest) hrequests

end UpToDate

/-- Once all scopes are loaded, a page has the value of the global scope for every global variable that it does not
declare itself, whatever is asked for; only the global scope is not loaded alone. -/
theorem value?_page_after (e : Engine σ) {requests : List Request} (hrequests : ∀ r ∈ requests, r ≠ .load .global)
    {page name : String} (hs : ((e.perform .loadAll).after requests).scope? (.page page) = some s)
    (hname : name ∈ ((e.perform .loadAll).after requests).global.definitions.names)
    (hown : name ∉ s.definitions.names) :
    ∃ v, ((e.perform .loadAll).after requests).value? .global name = some v ∧
      ((e.perform .loadAll).after requests).value? (.page page) name = some v := by
  have hcurrent := (UpToDate.loadAll e).after hrequests
  obtain ⟨v, hv⟩ := hcurrent.1.valued name hname
  refine ⟨v, hv, ?_⟩
  rw [value?, hs]
  exact (hcurrent.1.seen page s hs name hname hown id).trans hv

def inn : Engine Unit :=
  (((start () .none).define .global ⟨"hp", .literal (.number 3), none, none⟩).2.define (.page "inn")
    ⟨"rest", .expression "hp + hp", none, none⟩).2

theorem names_inn : (∃ s, inn.scope? .global = some s ∧ s.definitions.names = ["hp"]) ∧
    ∃ s, inn.scope? (.page "inn") = some s ∧ s.definitions.names = ["rest"] := by
  have hglobal : (inn.scope? .global).map (fun s => s.definitions.names) = some ["hp"] := by decide +kernel
  have hpage : (inn.scope? (.page "inn")).map (fun s => s.definitions.names) = some ["rest"] := by decide +kernel
  exact ⟨Option.map_eq_some_iff.1 hglobal, Option.map_eq_some_iff.1 hpage⟩

theorem value?_page_after_inn :
    let e := (inn.perform .loadAll).after [.run .global "addValue('hp', 1)", .load (.page "inn")]
    ∃ v, e.value? .global "hp" = some v ∧ e.value? (.page "inn") "hp" = some v := by
  obtain ⟨_, hglobal, hname⟩ := (kept_names .global ["hp"]).after names_inn.1
    [.loadAll, .run .global "addValue('hp', 1)", .load (.page "inn")]
  obtain ⟨s, hpage, hown⟩ := (kept_names (.page "inn") ["rest"]).after names_inn.2
    [.loadAll, .run .global "addValue('hp', 1)", .load (.page "inn")]
  cases hglobal
  exact value?_page_after inn (by simp) hpage (hname ▸ List.mem_singleton.2 rfl) (hown ▸ by decide)

end LiveSheet.Engine
