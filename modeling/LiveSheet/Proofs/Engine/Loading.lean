import LiveSheet.Proofs.Engine.Session

/-! Loading all scopes never fails. It makes one full pass over each scope, and the passes over the pages start from
the values that the pass over the global scope gave. -/

namespace LiveSheet.Engine

variable {σ : Type} {e e' : Engine σ} {s : ScopeState} {page : String}

theorem store_fullPass (e : Engine σ) (id : ScopeId) (s : ScopeState) :
    (e.fullPass id s).2.store = e.world.store.note (.load id) :=
  Resolution.store_ofGraph _ _ _ _ _ _

theorem store_resolved (e : Engine σ) (id : ScopeId) (s : ScopeState) :
    (e.resolved id s).world.store = e.world.store.note (.load id) := by
  rw [resolved, world_setScope]
  exact store_fullPass e id s

/-- Engines that differ in nothing that a full pass over a page depends on, but for what a store of the host makes of
being asked. -/
structure Alongside (e e' : Engine σ) : Prop where
  global : e'.global = e.global
  store : (∀ access, e.world.store.note access = e.world.store) → e'.world.store = e.world.store
  integrations : e'.world.integrations = e.world.integrations

theorem Alongside.trans {e'' : Engine σ} (h : Alongside e e') (h' : Alongside e' e'') : Alongside e e'' :=
  ⟨h'.global.trans h.global, fun hnote => (h'.store (h.store hnote ▸ hnote)).trans (h.store hnote),
    h'.integrations.trans h.integrations⟩

theorem alongside_resolved (e : Engine σ) (page : String) (s : ScopeState) : Alongside e (e.resolved (.page page) s) :=
  ⟨rfl, fun hnote => (store_resolved _ _ _).trans (hnote _), (settled_fullPass _ _ _).integrations⟩

/-- Some pages were loaded, one after the other. -/
structure PagesLoaded (names : List String) (e e' : Engine σ) : Prop extends Alongside e e' where
  others : ∀ page, page ∉ names → e'.pages[page]? = e.pages[page]?
  loaded : ∀ page ∈ names, ∀ s, e.pages[page]? = some s →
    ∃ e₁, Alongside e e₁ ∧ e'.pages[page]? = some (e₁.passed (.page page) s)

theorem pages_resolved (e : Engine σ) (name : String) (s : ScopeState) (page : String) :
    (e.resolved (.page name) s).pages[page]? = if name = page then some (e.passed (.page name) s) else e.pages[page]? :=
  NameMap.get?_insert _ _ _ _

theorem loadEach_pages {names : List String} (hnodup : names.Nodup)
    (hpages : ∀ page ∈ names, ∃ s, e.pages[page]? = some s) :
    ∃ answer, e.loadEach (names.map .page) = .ok answer ∧ PagesLoaded names e answer.2 := by
  induction names generalizing e with
  | nil => exact ⟨([], e), rfl, ⟨rfl, fun _ => rfl, rfl⟩, fun _ _ => rfl, fun _ h => absurd h List.not_mem_nil⟩
  | cons name names ih =>
    obtain ⟨hname, hnodup⟩ := List.nodup_cons.1 hnodup
    obtain ⟨⟨s, hs⟩, hpages⟩ := List.forall_mem_cons.1 hpages
    have hothers : ∀ page ∈ names, (e.resolved (.page name) s).pages[page]? = e.pages[page]? := by
      intro page hpage
      rw [pages_resolved, if_neg]
      rintro rfl
      exact hname hpage
    have hscope : e.scope? (.page name) = some s := hs
    obtain ⟨answer, hanswer, h⟩ := ih hnodup fun page hpage => (hothers page hpage).symm ▸ hpages page hpage
    refine ⟨_, loadEach_cons hscope hanswer, (alongside_resolved e name s).trans h.toAlongside, ?_, ?_⟩
    · intro page hpage
      obtain ⟨hne, hpage⟩ := not_or.1 (List.mem_cons.not.1 hpage)
      exact (h.others page hpage).trans ((pages_resolved e name s page).trans (if_neg (Ne.symm hne)))
    · intro page hpage t ht
      rcases List.mem_cons.1 hpage with rfl | hpage
      · -- Its engine is the one right before its own pass, and no later pass is over this page.
        obtain rfl := Option.some.inj (hs.symm.trans ht)
        refine ⟨e, ⟨rfl, fun _ => rfl, rfl⟩, (h.others page hname).trans ?_⟩
        exact (pages_resolved e page s page).trans (if_pos rfl)
      · obtain ⟨e₁, halong, hloaded⟩ := h.loaded page hpage t ((hothers page hpage).trans ht)
        exact ⟨e₁, (alongside_resolved e name s).trans halong, hloaded⟩

theorem loadAll_eq (e : Engine σ) : ∃ resolutions, e.loadAll = .ok (resolutions, e.perform .loadAll) ∧
    PagesLoaded e.pages.keys (e.resolved .global e.global) (e.perform .loadAll) := by
  have hpages : ∀ page ∈ e.pages.keys, ∃ s, (e.resolved .global e.global).pages[page]? = some s :=
    fun page => (NameMap.mem_keys_iff e.pages page).1
  obtain ⟨answer, hanswer, h⟩ := loadEach_pages (NameMap.nodup_keys e.pages) hpages
  have hglobal : e.scope? .global = some e.global := rfl
  have hload : e.loadAll = .ok ((.global, (e.fullPass .global e.global).1) :: answer.1, answer.2) := by
    rw [loadAll, scopeIds]
    exact loadEach_cons hglobal hanswer
  rw [perform_loadAll, hload]
  exact ⟨_, rfl, h⟩

theorem global_loadAll (e : Engine σ) : (e.perform .loadAll).global = e.passed .global e.global := by
  obtain ⟨_, _, h⟩ := loadAll_eq e
  exact h.global

theorem page_loadAll (hs : e.scope? (.page page) = some s) :
    ∃ e₁, Alongside (e.resolved .global e.global) e₁ ∧
      (e.perform .loadAll).scope? (.page page) = some (e₁.passed (.page page) s) := by
  obtain ⟨_, _, h⟩ := loadAll_eq e
  exact h.loaded page ((NameMap.mem_keys_iff _ _).2 ⟨s, hs⟩) s hs

end LiveSheet.Engine
