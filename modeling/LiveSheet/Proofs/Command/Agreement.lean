import Mathlib.Data.List.Induction
import LiveSheet.Proofs.Command.Requests
import LiveSheet.Proofs.Command.Writes

/-! Definitions, values, store and events after a command. Each of them holds the last value written to a variable,
as its bounds allow it, and everything that was not written to is as it was. -/

namespace LiveSheet

/-- The last value written to a variable. -/
def lastWritten? (writes : List Write) (name : String) : Option Value :=
  (writes.filter fun w => w.name = name).getLast?.map Write.value

/-- The last that the host is told of a write to a variable. -/
def lastModified? (events : List Event) (name : String) : Option Event :=
  (events.filter fun e => e.kind = .modified ∧ e.name = name).getLast?

/-- What some writes to the variables of a scope leave in all the places that know of them, the events in the order
they occurred. -/
structure Agreement (scope : ScopeId) (definitions : VariableSet) (values : NameMap Value) (state : Store.State)
    (writes : List Write) (definitions' : VariableSet) (values' : NameMap Value) (state' : Store.State)
    (modified : NameSet) (events : List Event) : Prop where
  names_eq : definitions'.names = definitions.names
  written : ∀ n ∈ modified, ∃ d value, definitions.get? n = some d ∧ lastWritten? writes n = some value ∧
    definitions'.get? n = some (d.freeze (d.clamp value)) ∧ values'[n]? = some (d.clamp value) ∧
    (state'.values scope)[n]? = some (d.clamp value) ∧
    lastModified? events n = some ⟨.modified, scope, n, d.clamp value⟩
  unwritten : ∀ n ∉ modified, definitions'.get? n = definitions.get? n ∧ values'[n]? = values[n]? ∧
    (state'.values scope)[n]? = (state.values scope)[n]?
  /-- Nothing is stored for another scope. -/
  others : ∀ id ≠ scope, state'[id]? = state[id]?
  mem_modified : ∀ n, n ∈ modified ↔ ∃ e ∈ events, e.kind = .modified ∧ e.name = n
  /-- The variables written to are the declared ones among those the writes name. -/
  mem_modified_iff_written : ∀ n, n ∈ modified ↔ n ∈ definitions.names ∧ ∃ w ∈ writes, w.name = n
  resolved_next : ∀ i e, events[i]? = some e → e.kind = .modified → events[i + 1]? = some { e with kind := .resolved }

theorem Variable.clamp_freeze (d : Variable) (stored value : Value) : (d.freeze stored).clamp value = d.clamp value := by
  cases value <;> rfl

theorem lastWritten?_concat (writes : List Write) (w : Write) (n : String) :
    lastWritten? (writes ++ [w]) n = if w.name = n then some w.value else lastWritten? writes n := by
  unfold lastWritten?
  rw [List.filter_append]
  by_cases h : w.name = n
  · simp [h]
  · simp [h]

theorem lastModified?_append (events : List Event) (scope : ScopeId) (name : String) (stored : Value) (n : String) :
    lastModified? (events ++ [⟨.modified, scope, name, stored⟩, ⟨.resolved, scope, name, stored⟩]) n =
      if name = n then some ⟨.modified, scope, name, stored⟩ else lastModified? events n := by
  unfold lastModified?
  rw [List.filter_append]
  by_cases h : name = n
  · simp [h]
  · simp [h]

theorem exists_modified_append_iff {events : List Event} {scope : ScopeId} {name n : String} {stored : Value} :
    (∃ e ∈ events ++ [⟨.modified, scope, name, stored⟩, ⟨.resolved, scope, name, stored⟩], e.kind = .modified ∧ e.name = n) ↔
      name = n ∨ ∃ e ∈ events, e.kind = .modified ∧ e.name = n := by
  constructor
  · rintro ⟨e, he, hkind⟩
    simp only [List.mem_append, List.mem_cons, List.not_mem_nil, or_false] at he
    obtain he | rfl | rfl := he
    · exact .inr ⟨e, he, hkind⟩
    · exact .inl hkind.2
    · cases hkind.1
  · rintro (rfl | ⟨e, he, hkind⟩)
    · exact ⟨⟨.modified, scope, name, stored⟩, by simp, rfl, rfl⟩
    · exact ⟨e, List.mem_append_left _ he, hkind⟩

theorem resolved_next_append {events : List Event} {scope : ScopeId} {name : String} {stored : Value}
    (h : ∀ i e, events[i]? = some e → e.kind = .modified → events[i + 1]? = some { e with kind := .resolved }) (i : Nat)
    (e : Event) (he : (events ++ [⟨.modified, scope, name, stored⟩, ⟨.resolved, scope, name, stored⟩])[i]? = some e)
    (hkind : e.kind = .modified) :
    (events ++ [⟨.modified, scope, name, stored⟩, ⟨.resolved, scope, name, stored⟩])[i + 1]? =
      some { e with kind := .resolved } := by
  by_cases hi : i < events.length
  · rw [List.getElem?_append_left hi] at he
    have hnext := h i e he hkind
    rwa [List.getElem?_append_left (List.getElem?_eq_some_iff.1 hnext).1]
  · obtain ⟨j, rfl⟩ := Nat.exists_eq_add_of_le (Nat.not_lt.1 hi)
    rw [List.getElem?_append_right (by omega), Nat.add_sub_cancel_left] at he
    rw [List.getElem?_append_right (by omega), Nat.add_assoc, Nat.add_sub_cancel_left]
    match j with
    | 0 =>
      obtain rfl := Option.some.inj he
      rfl
    | 1 =>
      obtain rfl := Option.some.inj he
      cases hkind
    | _ + 2 => cases he

namespace Agreement

variable {scope : ScopeId} {definitions : VariableSet} {values : NameMap Value} {state : Store.State}

theorem refl (scope : ScopeId) (definitions : VariableSet) (values : NameMap Value) (state : Store.State) :
    Agreement scope definitions values state [] definitions values state ∅ [] where
  names_eq := rfl
  written _ hn := absurd hn Std.ExtTreeSet.not_mem_empty
  unwritten _ _ := ⟨rfl, rfl, rfl⟩
  others _ _ := rfl
  mem_modified _ := by simp
  mem_modified_iff_written _ := by simp
  resolved_next i e h := by simp at h

variable {writes : List Write} {definitions' : VariableSet} {values' : NameMap Value} {state' : Store.State}
  {modified : NameSet} {events : List Event}

theorem ignore (h : Agreement scope definitions values state writes definitions' values' state' modified events)
    {w : Write} (hw : w.name ∉ definitions.names) :
    Agreement scope definitions values state (writes ++ [w]) definitions' values' state' modified events where
  names_eq := h.names_eq
  written n hn := by
    have hne : w.name ≠ n := fun heq => hw (heq ▸ ((h.mem_modified_iff_written n).1 hn).1)
    rw [lastWritten?_concat, if_neg hne]
    exact h.written n hn
  unwritten := h.unwritten
  others := h.others
  mem_modified := h.mem_modified
  mem_modified_iff_written n := by
    rw [h.mem_modified_iff_written n]
    refine and_congr_right fun hn => ?_
    have hne : w.name ≠ n := fun heq => hw (heq ▸ hn)
    simp [hne]
  resolved_next := h.resolved_next

theorem declared (h : Agreement scope definitions values state writes definitions' values' state' modified events)
    {n : String} {d' : Variable} (hd : definitions'.get? n = some d') :
    ∃ d, definitions.get? n = some d ∧ d'.clamp = d.clamp ∧ d'.freeze = d.freeze := by
  by_cases hn : n ∈ modified
  · obtain ⟨d, value, hget, -, hget', -⟩ := h.written n hn
    obtain rfl : d.freeze (d.clamp value) = d' := Option.some.inj (hget'.symm.trans hd)
    exact ⟨d, hget, funext fun v => d.clamp_freeze _ v, rfl⟩
  · exact ⟨d', (h.unwritten n hn).1 ▸ hd, rfl, rfl⟩

theorem write (h : Agreement scope definitions values state writes definitions' values' state' modified events)
    {name : String} {value stored : Value} {next : VariableSet}
    (hw : definitions'.write? name value = some (stored, next)) :
    Agreement scope definitions values state (writes ++ [⟨name, value⟩]) next (values'.insert name stored)
      (state'.write scope name stored) (modified.insert name)
      (events ++ [⟨.modified, scope, name, stored⟩, ⟨.resolved, scope, name, stored⟩]) := by
  obtain ⟨d', hd', heq⟩ := Option.map_eq_some_iff.1 hw
  obtain ⟨rfl, rfl⟩ := Prod.mk.inj heq
  obtain ⟨d, hd, hclamp, hfreeze⟩ := h.declared hd'
  rw [hclamp]
  have hmem : ∀ n, n ∈ modified.insert name ↔ name = n ∨ n ∈ modified := by
    intro n
    rw [Std.ExtTreeSet.mem_insert, Std.compare_eq_iff_eq]
  refine ⟨?_, ?_, ?_, ?_, fun n => ?_, fun n => ?_, resolved_next_append h.resolved_next⟩
  · rw [VariableSet.names_freeze, h.names_eq]
  · intro n hn
    rw [VariableSet.get?_freeze, NameMap.get?_insert, Store.State.values_write, if_pos rfl, NameMap.get?_insert,
      lastWritten?_concat, lastModified?_append]
    by_cases hne : name = n
    · subst hne
      simp only [if_true]
      refine ⟨d, value, hd, rfl, ?_, rfl, rfl, rfl⟩
      rw [hd', Option.map_some, hfreeze]
    · obtain ⟨e, last, he, hlast, he', hvalue, hstate, hevent⟩ := h.written n (((hmem n).1 hn).resolve_left hne)
      simp only [if_neg hne, if_neg (Ne.symm hne), Option.map_id_fun', id]
      exact ⟨e, last, he, hlast, he', hvalue, hstate, hevent⟩
  · intro n hn
    obtain ⟨hne, hn⟩ := not_or.1 (mt (hmem n).2 hn)
    rw [VariableSet.get?_freeze, NameMap.get?_insert, Store.State.values_write, if_pos rfl, NameMap.get?_insert]
    simp only [if_neg hne, if_neg (Ne.symm hne), Option.map_id_fun', id]
    exact h.unwritten n hn
  · intro id hid
    rw [Store.State.getElem?_write, if_neg hid.symm]
    exact h.others id hid
  · rw [hmem, h.mem_modified, exists_modified_append_iff]
  · have hname : name ∈ definitions.names := (definitions.get?_isSome name).1 (by rw [hd, Option.isSome_some])
    rw [hmem, h.mem_modified_iff_written]
    constructor
    · rintro (rfl | ⟨hn, w, hw, hwn⟩)
      · exact ⟨hname, ⟨name, value⟩, by simp, rfl⟩
      · exact ⟨hn, w, List.mem_append_left _ hw, hwn⟩
    · rintro ⟨hn, w, hw, hwn⟩
      obtain hw | hw := List.mem_append.1 hw
      · exact .inr ⟨hn, w, hw, hwn⟩
      · exact .inl (by rw [← hwn, List.mem_singleton.1 hw])

end Agreement

theorem Agreement.replay (scope : ScopeId) (definitions : VariableSet) (values : NameMap Value) (state : Store.State)
    (events₀ : List Event) (ws : List Write) :
    let c := ws.foldl Copies.write ⟨scope, definitions, values, .memory state, ∅, events₀⟩
    c.scope = scope ∧ ∃ state' events, c.store = .memory state' ∧ c.events = events.reverse ++ events₀ ∧
      Agreement scope definitions values state ws c.definitions c.values state' c.modified events := by
  induction ws using List.reverseRecOn with
  | nil => exact ⟨rfl, state, [], rfl, rfl, .refl scope definitions values state⟩
  | append_singleton ws w ih =>
    rw [List.foldl_append, List.foldl_cons, List.foldl_nil]
    generalize ws.foldl Copies.write _ = c at ih ⊢
    obtain ⟨hscope, state', events, hstore, hevents, h⟩ := ih
    unfold Copies.write
    cases hw : c.definitions.write? w.name w.value with
    | none =>
      refine ⟨hscope, state', events, hstore, hevents, h.ignore fun hn => ?_⟩
      rw [← h.names_eq, ← c.definitions.get?_isSome, Option.isSome_iff_exists] at hn
      obtain ⟨d, hd⟩ := hn
      rw [VariableSet.write?, hd] at hw
      cases hw
    | some written =>
      refine ⟨hscope, _, _, ?_, ?_, h.write hw⟩
      · rw [hstore, hscope]
        rfl
      · simp [hscope, hevents]

namespace CommandRun

variable {σ : Type}

def writes (world : World σ) (scope : ScopeId) (definitions : VariableSet) (values : NameMap Value)
    (script : String) : List Write :=
  let world := (world.invoked script).2
  Eval.writesText ⟨world.integrations, NameSet.ofNames (definitions.names ++ values.keys)⟩ .command
    ⟨world, values, ∅, some ⟨scope, definitions, ∅⟩⟩ script

/-- A script leaves definitions, values, store and events in agreement, whether it completes, cannot be read or
stops at some statement. -/
theorem run_agreement (world : World σ) (state : Store.State) (scope : ScopeId) (definitions : VariableSet)
    (values : NameMap Value) (script : String) :
    let start : World σ := { world with store := .memory state }
    let (c, after) := run start scope definitions values script
    ∃ state' events, after.store = .memory state' ∧ after.events = events.reverse ++ world.events ∧
      Agreement scope definitions values state (writes start scope definitions values script)
        c.definitions c.values state' c.modified events := by
  intro start
  let world' := (start.invoked script).2
  let env : Setting σ := ⟨world'.integrations, NameSet.ofNames (definitions.names ++ values.keys)⟩
  let m : Machine σ := ⟨world', values, ∅, some ⟨scope, definitions, ∅⟩⟩
  let m' := (Eval.exec (Eval.evaluate env .command script) m).2
  let ws := Eval.writesText env .command m script
  have hperforms : m'.copies? =
      some (ws.foldl Copies.write ⟨scope, definitions, values, .memory state, ∅, world.events⟩) :=
    Eval.evaluate_performs env .command script m
  obtain ⟨s, hs, hcopies⟩ := Option.map_eq_some_iff.1 hperforms
  obtain ⟨-, state', events, hstore, hevents, h⟩ := Agreement.replay scope definitions values state world.events
    ws
  rw [← hcopies] at hstore hevents h
  refine ⟨state', events, hstore, hevents, ?_⟩
  change Agreement scope definitions values state ws (m'.session.getD _).definitions m'.values state'
    (m'.session.getD _).modified events
  rw [hs]
  exact h

end CommandRun

end LiveSheet
