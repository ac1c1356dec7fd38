import LiveSheet.Proofs.Engine.Globals

/-! What the host is told. Whatever an engine is asked for, the last value reported for a variable is the value it
has. -/

namespace LiveSheet.Engine

variable {σ : Type} {e : Engine σ} {id : ScopeId} {s : ScopeState}

/-- The host was last told the value of every variable that has one. -/
def Told (e : Engine σ) : Prop := ∀ id s, e.scope? id = some s → ∀ n ∈ s.definitions.names, ∀ v,
  s.values[n]? = some v → lastResolved? e.world.events id n = some v

/-- A move in one scope that reports the values it gives. What it gives no value starts from the value it had. -/
theorem Told.setScope (h : e.Told) (hs : e.scope? id = some s) {s' : ScopeState} {order : List String}
    {seed : NameMap Value} {world : World σ} (hnames : s'.definitions.names = s.definitions.names)
    (hsettled : Resolution.Settled id order seed s'.values e.world world)
    (hseed : ∀ n ∈ s.definitions.names, n ∉ order → seed[n]? = s.values[n]?) :
    ({ e with world }.setScope id s').Told := by
  intro id' t ht n hn v hv
  rw [scope?_setScope, scope?_mk] at ht
  rw [world_setScope]
  split at ht
  · next hid =>
    subst hid
    obtain rfl := Option.some.inj ht
    by_cases horder : n ∈ order
    · obtain ⟨v', hv', htold⟩ := hsettled.told n horder
      rwa [← hv, hv']
    · rw [hnames] at hn
      rw [hsettled.untold id n (.inr horder)]
      refine h id s hs n hn v ?_
      rw [← hseed n hn horder, ← hsettled.kept n horder, hv]
  · next hid =>
    rw [hsettled.untold id' n (.inl (Ne.symm hid))]
    exact h id' t ht n hn v hv

theorem kept_told : Kept (Told (σ := σ)) where
  resolved e id s h hs := by
    refine h.setScope hs (names_passed e id s) (settled_fullPass e id s) fun n hn horder => ?_
    exact absurd ((mem_order_fullPass e id s n).2 hn) horder
  commanded e id s script h hs :=
    h.setScope hs (overwritten_scriptRun e id s script).names_eq
      ((settled_scriptRun e id s script).append (settled_follow e id s script)) fun _ _ _ => rfl
  refreshed e name s changed h hs := by
    refine h.setScope hs rfl (settled_refreshPass e s name changed) fun n hn _ => ?_
    rw [get?_shown, if_neg fun h => h.2 hn]

/-- Engines that were declared, by a sheet or piece by piece, and not asked for anything yet. -/
inductive Fresh : Engine σ → Prop where
  | start (host : σ) (store : Store) : Fresh (.start host store)
  | define {e : Engine σ} (h : Fresh e) (id : ScopeId) (v : Variable) : Fresh (e.define id v).2
  | addCommand {e : Engine σ} (h : Fresh e) (id : ScopeId) (name script : String) : Fresh (e.addCommand id name script)
  | addLabel {e : Engine σ} (h : Fresh e) (id : ScopeId) (name text : String) : Fresh (e.addLabel id name text)
  | register {e : Engine σ} (h : Fresh e) (integration : Integration σ) : Fresh (e.register integration)
  | remove {e : Engine σ} (h : Fresh e) (name : String) : Fresh (e.remove name)
  | reload {e e' : Engine σ} {sheet : Sheet} (h : Fresh e) (heq : e.reload sheet = .ok e') : Fresh e'

def Unresolved (e : Engine σ) : Prop := ∀ id s, e.scope? id = some s → s.values = ∅

theorem Unresolved.setScope (h : e.Unresolved) {s' : ScopeState} (hs' : s'.values = ∅) :
    (e.setScope id s').Unresolved := by
  intro id' t ht
  rw [scope?_setScope] at ht
  split at ht
  · exact Option.some.inj ht ▸ hs'
  · exact h id' t ht

theorem Unresolved.scopeOrEmpty (h : e.Unresolved) (id : ScopeId) : (e.scopeOrEmpty id).values = ∅ := by
  unfold Engine.scopeOrEmpty
  cases hs : e.scope? id with
  | none => rfl
  | some s => exact h id s hs

theorem exists_mem_of_mapM {α β : Type} {f : α → Except SheetError β} {as : List α} {bs : List β}
    (h : as.mapM f = .ok bs) {b : β} (hb : b ∈ bs) : ∃ a ∈ as, f a = .ok b := by
  induction as generalizing bs with
  | nil =>
    cases h
    cases hb
  | cons a as ih =>
    rw [List.mapM_cons] at h
    obtain ⟨c, hc, h⟩ := Parser.bind_eq_ok.1 h
    obtain ⟨rest, hrest, heq⟩ := Parser.bind_eq_ok.1 h
    cases heq
    rcases List.mem_cons.1 hb with rfl | hb
    · exact ⟨a, List.mem_cons_self, hc⟩
    · obtain ⟨a', ha', heq⟩ := ih hrest hb
      exact ⟨a', List.mem_cons_of_mem _ ha', heq⟩

theorem values_of_pageStates {sheet : Sheet} {pages : NameMap ScopeState} (h : pageStates sheet = .ok pages)
    {name : String} (hs : pages[name]? = some s) : s.values = ∅ := by
  obtain ⟨states, hstates, heq⟩ := Parser.bind_eq_ok.1 h
  cases heq
  obtain ⟨⟨_, page⟩, _, hpage⟩ := exists_mem_of_mapM hstates (NameMap.mem_of_get?_ofEntries hs)
  obtain ⟨state, hstate, heq⟩ := Parser.map_eq_ok.1 hpage
  obtain ⟨definitions, _, hstate⟩ := Parser.bind_eq_ok.1 hstate
  cases heq
  cases hstate
  rfl

theorem Fresh.unresolved (h : e.Fresh) : e.Unresolved := by
  induction h with
  | start host store =>
    intro id s hs
    cases id with
    | global => exact Option.some.inj hs ▸ rfl
    | page name => cases hs
  | define _ id v ih =>
    unfold Engine.define
    extract_lets s
    cases s.definitions.insert v with
    | ok definitions => exact ih.setScope (ih.scopeOrEmpty id)
    | error fault => exact ih.setScope (ih.scopeOrEmpty id)
  | addCommand _ id _ _ ih => exact ih.setScope (ih.scopeOrEmpty id)
  | addLabel _ id _ _ ih => exact ih.setScope (ih.scopeOrEmpty id)
  | register _ integration ih => exact fun id s hs => ih id s (scope?_mk _ _ id ▸ hs)
  | remove _ name ih =>
    unfold Engine.remove
    split
    · exact fun id s hs => ih id s (scope?_mk _ _ id ▸ hs)
    · exact ih
  | reload _ heq _ =>
    obtain ⟨definitions, _, heq⟩ := Parser.bind_eq_ok.1 heq
    obtain ⟨pages, hpages, heq⟩ := Parser.bind_eq_ok.1 heq
    cases heq
    intro id s hs
    cases id with
    | global => exact Option.some.inj hs ▸ rfl
    | page name => exact values_of_pageStates hpages hs

/-- After every session with a fresh engine, the last value reported for a variable is the value it has. -/
theorem lastResolved?_after (hfresh : e.Fresh) (requests : List Request) {name : String} {v : Value}
    (hs : (e.after requests).scope? id = some s) (hname : name ∈ s.definitions.names)
    (hvalue : (e.after requests).value? id name = some v) :
    lastResolved? (e.after requests).world.events id name = some v := by
  have hstart : e.Told := by
    intro id s hs n _ v hv
    rw [hfresh.unresolved id s hs] at hv
    simp at hv
  refine kept_told.after hstart requests id s hs name hname v ?_
  rwa [value?, hs] at hvalue

theorem lastResolved?_after_inn :
    let e := inn.after [.loadAll, .run .global "addValue('hp', 1)"]
    ∃ v, e.value? .global "hp" = some v ∧ lastResolved? e.world.events .global "hp" = some v := by
  have hfresh : inn.Fresh := ((Fresh.start () .none).define .global _).define (.page "inn") _
  obtain ⟨s, hs, hname⟩ := (kept_names .global ["hp"]).after names_inn.1 [.loadAll, .run .global "addValue('hp', 1)"]
  have hrequest : Request.run .global "addValue('hp', 1)" ≠ .load .global := by simp
  have hcurrent := (UpToDate.loadAll inn).perform hrequest
  have hmem : "hp" ∈ s.definitions.names := hname ▸ List.mem_singleton.2 rfl
  cases hs
  obtain ⟨v, hv⟩ := hcurrent.1.valued "hp" hmem
  exact ⟨v, hv, lastResolved?_after hfresh _ rfl hmem hv⟩

end LiveSheet.Engine
