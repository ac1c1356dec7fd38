import LiveSheet.Command
import LiveSheet.Proofs.Eval.Exec
import LiveSheet.Proofs.Variable.Lookup

/-! What a script does to the variables of its scope. Whether it completes or fails, every variable
it wrote to is a literal with that value in the scope, and everything else is as it was. -/

namespace LiveSheet

namespace CommandRun

/-- The definitions and values of a scope some variables of which were written to. -/
structure Overwritten (definitions : VariableSet) (values : NameMap Value)
    (definitions' : VariableSet) (values' : NameMap Value) (modified : NameSet) : Prop where
  names_eq : definitions'.names = definitions.names
  /-- A variable that was written to is a literal, and this is its value. -/
  written : ∀ n ∈ modified, ∃ d v, definitions'.get? n = some d ∧ d.rule = .literal v ∧ values'[n]? = some v
  get?_eq : ∀ n, n ∉ modified → definitions'.get? n = definitions.get? n
  value_eq : ∀ n, n ∉ modified → values'[n]? = values[n]?

namespace Overwritten

variable {definitions definitions' : VariableSet} {values values' : NameMap Value} {modified : NameSet}

theorem refl (definitions : VariableSet) (values : NameMap Value) :
    Overwritten definitions values definitions values ∅ where
  names_eq := rfl
  written _ hn := absurd hn Std.ExtTreeSet.not_mem_empty
  get?_eq _ _ := rfl
  value_eq _ _ := rfl

theorem write (h : Overwritten definitions values definitions' values' modified) {name : String}
    {value stored : Value} {next : VariableSet} (hw : definitions'.write? name value = some (stored, next)) :
    Overwritten definitions values next (values'.insert name stored) (modified.insert name) := by
  obtain ⟨d, hd, heq⟩ := Option.map_eq_some_iff.1 hw
  obtain ⟨rfl, rfl⟩ := Prod.mk.inj heq
  have hmem : ∀ n, n ∈ modified.insert name ↔ name = n ∨ n ∈ modified := by
    intro n
    rw [Std.ExtTreeSet.mem_insert, Std.compare_eq_iff_eq]
  refine ⟨by rw [VariableSet.names_freeze, h.names_eq], ?_, ?_, ?_⟩
  · intro n hn
    by_cases hne : name = n
    · subst hne
      refine ⟨d.freeze (d.clamp value), d.clamp value, ?_, rfl, ?_⟩
      · rw [VariableSet.get?_freeze, hd]
        simp
      · rw [NameMap.get?_insert, if_pos rfl]
    · obtain ⟨e, v, he, hv, hvalue⟩ := h.written n (((hmem n).1 hn).resolve_left hne)
      refine ⟨e, v, ?_, hv, ?_⟩
      · rw [VariableSet.get?_freeze, he]
        simp [Ne.symm hne]
      · rw [NameMap.get?_insert, if_neg hne, hvalue]
  · intro n hn
    obtain ⟨hne, hn⟩ := not_or.1 (mt (hmem n).2 hn)
    rw [VariableSet.get?_freeze, h.get?_eq n hn]
    simp [Ne.symm hne]
  · intro n hn
    obtain ⟨hne, hn⟩ := not_or.1 (mt (hmem n).2 hn)
    rw [NameMap.get?_insert, if_neg hne, h.value_eq n hn]

end Overwritten

variable {σ : Type} (definitions : VariableSet) (values : NameMap Value)

/-- The session of a machine holds what was written so far. -/
def Holds (m : Machine σ) : Prop :=
  ∃ s, m.session = some s ∧ Overwritten definitions values s.definitions m.values s.modified

theorem stable_holds : Eval.Stable (Holds (σ := σ) definitions values) where
  written := by
    rintro m s name value stored next ⟨s', hs', h⟩ hs hw
    obtain rfl : s' = s := Option.some.inj (hs'.symm.trans hs)
    exact ⟨_, rfl, h.write hw⟩
  performed _ _ _ _ _ h := h
  bound _ _ _ h := h
  sequenced _ _ _ h := h

theorem run_of_stable {I : Machine σ → Prop} (hI : Eval.Stable I) (world : World σ) (scope : ScopeId) (script : String)
    (hstart : I ⟨(world.invoked script).2, values, ∅, some ⟨scope, definitions, ∅⟩⟩)
    (hsession : ∀ m, I m → ∃ s, m.session = some s) :
    let c := run world scope definitions values script
    ∃ m s, I m ∧ m.session = some s ∧ c.1.definitions = s.definitions ∧ c.1.values = m.values ∧
      c.1.modified = s.modified ∧ c.2 = m.world := by
  intro c
  let env : Setting σ := ⟨(world.invoked script).2.integrations,
    NameSet.ofNames (definitions.names ++ values.keys)⟩
  let start : Machine σ := ⟨(world.invoked script).2, values, ∅, some ⟨scope, definitions, ∅⟩⟩
  have hkept := Eval.evaluate_preserves hI env .command script start hstart
  obtain ⟨s, hs⟩ := hsession _ hkept
  have hc : c.1.definitions = s.definitions ∧ c.1.modified = s.modified := by
    change (Option.getD (Eval.exec (Eval.evaluate env .command script) start).2.session _).definitions = _ ∧
      (Option.getD (Eval.exec (Eval.evaluate env .command script) start).2.session _).modified = _
    rw [hs]
    exact ⟨rfl, rfl⟩
  exact ⟨_, s, hkept, hs, hc.1, rfl, hc.2, rfl⟩

theorem overwritten (world : World σ) (scope : ScopeId) (script : String) :
    let c := (run world scope definitions values script).1
    Overwritten definitions values c.definitions c.values c.modified := by
  intro c
  obtain ⟨m, s, ⟨s', hs', h⟩, hs, hdefinitions, hvalues, hmodified, _⟩ := run_of_stable definitions values
    (stable_holds definitions values) world scope script ⟨_, rfl, .refl definitions values⟩
    fun _ h => ⟨_, h.choose_spec.1⟩
  obtain rfl : s' = s := Option.some.inj (hs'.symm.trans hs)
  rw [hdefinitions, hvalues, hmodified]
  exact h

end CommandRun

end LiveSheet
