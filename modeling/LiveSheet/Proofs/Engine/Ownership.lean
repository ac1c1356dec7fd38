import LiveSheet.Proofs.Engine.Reloading

/-! Integrations of the host beside the tables of the sheets. An engine knows the tables of its sheet by their names
alone. So what the host registers survives every reload, unless the sheet that is loaded at the time declares a table
of the same name: then it is taken out in the place of that table. -/

namespace LiveSheet.Engine

variable {σ : Type} {e : Engine σ} {name : String}

/-- A step decides what stands under a name: it registers an integration of that name, takes the name out, or loads a
sheet that declares a table of it. -/
def Step.Assigns (name : String) : Step σ → Prop
  | .register integration => integration.name = name
  | .remove n => n = name
  | .reload sheet => sheet.refusal? = none ∧ name ∈ sheet.tables
  | _ => False

def Step.loads? : Step σ → Option Sheet
  | .reload sheet => if sheet.refusal?.isNone then some sheet else none
  | _ => none

def lastLoaded? (steps : List (Step σ)) : Option Sheet := steps.reverse.findSome? Step.loads?

/-- The host registered an integration after some steps, and no later step decided what stands under its name. -/
def RegisteredLast (steps earlier : List (Step σ)) (integration : Integration σ) : Prop :=
  ∃ later, steps = earlier ++ .register integration :: later ∧ ∀ s ∈ later, ¬s.Assigns integration.name

/-- What the next sheet leaves under a name, if it declares no table of it. -/
def outlasting (e : Engine σ) (name : String) : Option (Integration σ) :=
  if name ∈ e.tables then none else e.integrations.get? name

theorem step_reload (e : Engine σ) (sheet : Sheet) :
    e.step (.reload sheet) = if sheet.refusal?.isNone then e.loaded sheet else e := by
  rw [step, on_reloadInPlace, reload_eq]
  cases sheet.refusal? <;> rfl

theorem mem_tables_step (e : Engine σ) (s : Step σ) (name : String) : name ∈ (e.step s).tables ↔ match s.loads? with
    | some sheet => name ∈ sheet.tables
    | none => name ∈ e.tables := by
  cases s with
  | define id v =>
    obtain ⟨state, heq⟩ := define_eq e id v
    rw [step, heq, tables_setScope]
    rfl
  | addCommand id command script =>
    rw [step, addCommand, tables_setScope]
    rfl
  | addLabel id label text =>
    rw [step, addLabel, tables_setScope]
    rfl
  | register integration => rfl
  | remove n =>
    rw [step, tables_remove]
    rfl
  | request request =>
    rw [step, (kept_tables e.tables).perform rfl request]
    rfl
  | reload sheet =>
    rw [step_reload, Step.loads?]
    split
    · exact mem_tables_loaded e sheet name
    · rfl

theorem get?_step (e : Engine σ) {s : Step σ} (hs : ¬s.Assigns name) (hloads : s.loads? = none) :
    (e.step s).integrations.get? name = e.integrations.get? name := by
  cases s with
  | define id v =>
    obtain ⟨state, heq⟩ := define_eq e id v
    rw [step, heq, integrations, world_setScope, integrations]
  | addCommand id command script => rw [step, addCommand, integrations, world_setScope, integrations]
  | addLabel id label text => rw [step, addLabel, integrations, world_setScope, integrations]
  | register integration => exact (get?_register e integration name).trans (if_neg hs)
  | remove n =>
    rw [step, integrations_remove, get?_remove]
    exact if_neg hs
  | request request =>
    rw [step, integrations, (kept_integrations e.world.integrations).perform rfl request]
    rfl
  | reload sheet =>
    have hrefused : ¬sheet.refusal?.isNone := fun h => by simp [Step.loads?, h] at hloads
    rw [step_reload, if_neg hrefused]

theorem outlasting_step {s : Step σ} (hs : ¬s.Assigns name) : (e.step s).outlasting name = e.outlasting name := by
  have htables := mem_tables_step e s name
  unfold outlasting
  cases hloads : s.loads? with
  | none =>
    rw [hloads] at htables
    simp only [htables, get?_step e hs hloads]
  | some sheet =>
    rw [hloads] at htables
    cases s with
    | reload sheet' =>
      obtain ⟨hloaded, rfl⟩ : sheet'.refusal?.isNone ∧ sheet' = sheet := by simpa [Step.loads?] using hloads
      have hname : name ∉ sheet'.tables := fun hmem => hs ⟨Option.isNone_iff_eq_none.1 hloaded, hmem⟩
      simp only [htables, hname, if_false]
      rw [step_reload, if_pos hloaded]
      exact get?_loaded e hname
    | _ => cases hloads

theorem outlasting_history {later : List (Step σ)} (hlater : ∀ s ∈ later, ¬s.Assigns name) :
    (e.history later).outlasting name = e.outlasting name := by
  induction later generalizing e with
  | nil => rfl
  | cons s later ih =>
    obtain ⟨hs, hlater⟩ := List.forall_mem_cons.1 hlater
    exact (ih hlater).trans (outlasting_step hs)

theorem get?_reload {e' : Engine σ} {sheet : Sheet} (hreload : e.reload sheet = .ok e') (hname : name ∉ sheet.tables) :
    e'.integrations.get? name = e.outlasting name := by
  rw [reload_eq] at hreload
  generalize sheet.refusal? = refusal at hreload
  cases refusal with
  | some fault => cases hreload
  | none =>
    cases hreload
    exact get?_loaded e hname

theorem mem_tables_history (host : σ) (store : Store) (steps : List (Step σ)) (name : String) :
    name ∈ ((start host store).history steps).tables ↔
      (lastLoaded? steps).any (·.tables.contains name) = true := by
  induction steps using List.reverseRecOn with
  | nil => exact iff_of_false Std.ExtTreeSet.not_mem_empty Bool.false_ne_true
  | append_singleton steps s ih =>
    have hlast : lastLoaded? (steps ++ [s]) = s.loads?.or (lastLoaded? steps) := by
      rw [lastLoaded?, List.reverse_concat, List.findSome?_cons, lastLoaded?]
      cases s.loads? <;> rfl
    rw [history, List.foldl_append]
    refine (mem_tables_step ((start host store).history steps) s name).trans ?_
    rw [hlast]
    cases s.loads? with
    | none => exact ih
    | some sheet => exact Std.ExtTreeMap.mem_iff_contains

/-- What the host registered and has not taken out since outlasts every reload by a sheet without a table of its name,
just if the sheet that was loaded when it was registered had no such table either. Otherwise the next sheet takes it
for a table of the sheet before. -/
theorem get?_reload_of_registeredLast (host : σ) (store : Store) {steps earlier : List (Step σ)}
    {integration : Integration σ} (hlast : RegisteredLast steps earlier integration) {sheet : Sheet} {e' : Engine σ}
    (hreload : ((start host store).history steps).reload sheet = .ok e') (hname : integration.name ∉ sheet.tables) :
    e'.integrations.get? integration.name =
      if (lastLoaded? earlier).any (·.tables.contains integration.name) then none else some integration := by
  obtain ⟨later, rfl, hlater⟩ := hlast
  have hregistered : (((start host store).history earlier).register integration).outlasting integration.name =
      if integration.name ∈ ((start host store).history earlier).tables then none else some integration := by
    rw [outlasting, get?_register, if_pos rfl]
    rfl
  rw [get?_reload hreload hname, history, List.foldl_append, List.foldl_cons]
  refine (outlasting_history hlater).trans (hregistered.trans ?_)
  simp only [mem_tables_history]

theorem reload_tavern (e : Engine σ) : e.reload tavern = .ok (e.loaded tavern) := (reload_eq e tavern).trans rfl

/-- A sheet whose table has another name does not matter, nor does one that is refused. -/
theorem get?_reload_of_registeredLast_coin :
    let steps := [.reload shop, .register coin, .remove "Prices", .reload ruin]
    RegisteredLast steps [.reload shop] coin ∧ coin.name ∉ tavern.tables ∧
      ∃ e', ((start () (.memory ∅)).history steps).reload tavern = .ok e' ∧
        e'.integrations.get? "Coin" = some coin := by
  intro steps
  have hrefusal : ruin.refusal? = some (.definition "key" .noRule) := by rfl
  have hlast : RegisteredLast steps [.reload shop] coin := by
    refine ⟨[.remove "Prices", .reload ruin], rfl, fun s hs => ?_⟩
    rcases List.mem_pair.1 hs with rfl | rfl
    · exact (by decide : ¬"Prices" = "Coin")
    · exact fun h => nomatch hrefusal.symm.trans h.1
  have hname : coin.name ∉ tavern.tables := by decide
  have hreload := reload_tavern ((start () (.memory ∅)).history steps)
  exact ⟨hlast, hname, _, hreload, get?_reload_of_registeredLast () (.memory ∅) hlast hreload hname⟩

def prices : Integration Unit where
  name := "Prices"
  operations := NameMap.ofEntries [("get", ⟨false, .host, fun _ s => (.ok (.number 7), s)⟩)]

/-- An integration of the host that stands in the place of a table goes when the table would have gone. -/
theorem get?_reload_of_registeredLast_prices :
    let steps := [.reload shop, .register prices]
    RegisteredLast steps [.reload shop] prices ∧ prices.name ∉ tavern.tables ∧
      ∃ e', ((start () (.memory ∅)).history steps).reload tavern = .ok e' ∧
        e'.integrations.get? "Prices" = none := by
  intro steps
  have hlast : RegisteredLast steps [.reload shop] prices := ⟨[], rfl, nofun⟩
  have hname : prices.name ∉ tavern.tables := by decide
  exact ⟨hlast, hname, _, reload_tavern _, (get?_loaded ((start () (.memory ∅)).history steps) hname).trans rfl⟩

end LiveSheet.Engine
