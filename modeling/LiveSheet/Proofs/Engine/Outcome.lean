import LiveSheet.Proofs.Engine.Session

/-! What the refresh of the pages leaves. Each loaded page is refreshed once; whatever came before it, it is refreshed
with the same global values and integrations. -/

namespace LiveSheet.Engine

variable {σ : Type} {e : Engine σ} {id : ScopeId} {s : ScopeState} {page : String}

theorem refreshPages_frame (changed : NameSet) (names : List String) :
    (refreshPages changed e names).2.2.global = e.global ∧
      (refreshPages changed e names).2.2.world.integrations = e.world.integrations := by
  refine refreshPages_preserves changed (I := fun e' => e'.global = e.global ∧
    e'.world.integrations = e.world.integrations) (fun e' name s h _ => ⟨h.1, ?_⟩) names ⟨rfl, rfl⟩
  exact (settled_refreshPass e' s name changed).integrations.trans h.2

theorem pages_refreshed_of_ne {name : String} {changed : NameSet} (h : name ≠ page) (t : ScopeState) :
    (e.refreshed t name changed).pages[page]? = e.pages[page]? :=
  (NameMap.get?_insert _ _ _ _).trans (if_neg h)

theorem refreshed_cons {name : String} (changed : NameSet) {names : List String} (h : e.pages[name]? = some s)
    (hloaded : s.loaded = true) : (refreshPages changed e (name :: names)).1 =
      (e.refreshPass s name changed).1.order.map (ScopeId.page name, ·) ++
        (refreshPages changed (e.refreshed s name changed) names).1 := by
  simp only [refreshPages, h, hloaded, if_true, refreshPage_eq, refreshed]

theorem mem_map_page {name n : String} {order : List String} :
    (ScopeId.page page, n) ∈ order.map (ScopeId.page name, ·) ↔ name = page ∧ n ∈ order := by
  simp [and_comm]

theorem pages_refreshPages_of_idle (changed : NameSet) {names : List String}
    (h : ∀ t, e.pages[page]? = some t → t.loaded = true → page ∉ names) :
    (refreshPages changed e names).2.2.pages[page]? = e.pages[page]? ∧
      ∀ n, (ScopeId.page page, n) ∉ (refreshPages changed e names).1 := by
  induction names generalizing e with
  | nil => exact ⟨rfl, fun _ => List.not_mem_nil⟩
  | cons name names ih =>
    have hlater : ∀ t, e.pages[page]? = some t → t.loaded = true → page ∉ names :=
      fun t ht hloaded hmem => h t ht hloaded (List.mem_cons_of_mem _ hmem)
    by_cases hname : ∃ t, e.pages[name]? = some t ∧ t.loaded = true
    · obtain ⟨t, ht, hloaded⟩ := hname
      have hne : name ≠ page := by
        rintro rfl
        exact h t ht hloaded List.mem_cons_self
      have hsame : (e.refreshed t name changed).pages[page]? = e.pages[page]? := pages_refreshed_of_ne hne t
      obtain ⟨hpages, hrefreshed⟩ := ih (e := e.refreshed t name changed) (hsame.symm ▸ hlater)
      refine ⟨by rw [refreshPages_cons changed ht hloaded, hpages, hsame], fun n hn => ?_⟩
      rw [refreshed_cons changed ht hloaded, List.mem_append, mem_map_page] at hn
      exact hn.elim (fun hn => hne hn.1) (hrefreshed n)
    · rw [refreshPages_skip changed fun t ht => Bool.eq_false_iff.2 fun hloaded => hname ⟨t, ht, hloaded⟩]
      exact ih hlater

theorem pages_refreshPages (changed : NameSet) {names : List String} (hnodup : names.Nodup) (hpage : page ∈ names)
    (hs : e.pages[page]? = some s) (hloaded : s.loaded = true) :
    ∃ e₁ : Engine σ, e₁.global = e.global ∧ e₁.world.integrations = e.world.integrations ∧
      (refreshPages changed e names).2.2.pages[page]? =
        some { s with values := (e₁.refreshPass s page changed).1.values } ∧
      ∀ n, (ScopeId.page page, n) ∈ (refreshPages changed e names).1 ↔ n ∈ (e₁.refreshPass s page changed).1.order := by
  induction names generalizing e with
  | nil => cases hpage
  | cons name names ih =>
    obtain ⟨hname, hnodup⟩ := List.nodup_cons.1 hnodup
    by_cases hne : name = page
    · subst hne
      obtain ⟨hpages, hnone⟩ := pages_refreshPages_of_idle (e := e.refreshed s name changed) changed fun _ _ _ => hname
      refine ⟨e, rfl, rfl, ?_, fun n => ?_⟩
      · rw [refreshPages_cons changed hs hloaded, hpages]
        exact (NameMap.get?_insert _ _ _ _).trans (if_pos rfl)
      · rw [refreshed_cons changed hs hloaded, List.mem_append, mem_map_page]
        exact ⟨fun hn => hn.elim And.right fun hn => absurd hn (hnone n), fun hn => .inl ⟨rfl, hn⟩⟩
    · have hpage := (List.mem_cons.1 hpage).resolve_left (Ne.symm hne)
      by_cases hrefreshed : ∃ t, e.pages[name]? = some t ∧ t.loaded = true
      · obtain ⟨t, ht, hloaded'⟩ := hrefreshed
        obtain ⟨e₁, hglobal, hworld, hvalues, horder⟩ := ih hnodup hpage ((pages_refreshed_of_ne hne t).trans hs)
        refine ⟨e₁, hglobal, hworld.trans (settled_refreshPass e t name changed).integrations,
          (congrArg (·.pages[page]?) (refreshPages_cons changed ht hloaded')).trans hvalues, fun n => ?_⟩
        rw [refreshed_cons changed ht hloaded', List.mem_append, mem_map_page, ← horder]
        exact ⟨fun hn => hn.elim (fun hn => absurd hn.1 hne) id, .inr⟩
      · rw [refreshPages_skip changed fun t ht => Bool.eq_false_iff.2 fun hloaded => hrefreshed ⟨t, ht, hloaded⟩]
        exact ih hnodup hpage hs

theorem ran_global_frame (e : Engine σ) (s : ScopeState) (script : String) :
    (e.ran .global s script).global = (e.commanded .global s script).global ∧
      (e.ran .global s script).world.integrations = (e.commanded .global s script).world.integrations :=
  refreshPages_frame (e.carried script) e.pages.keys

end LiveSheet.Engine
