import LiveSheet.Proofs.Engine.Session

/-! What the entries of a sheet declare. The first entry that cannot be declared is the error of them all; otherwise
each name stands where it comes first and has the variable of its last entry. -/

namespace LiveSheet

def unlessFault {α : Type} (fault? : Option SheetError) (a : α) : Except SheetError α :=
  match fault? with
  | some fault => .error fault
  | none => .ok a

theorem mapM_unlessFault {α β : Type} {f : α → Except SheetError β} {fault? : α → Option SheetError} {g : α → β}
    (h : ∀ a, f a = unlessFault (fault? a) (g a)) (as : List α) :
    as.mapM f = unlessFault (as.findSome? fault?) (as.map g) := by
  induction as with
  | nil => rfl
  | cons a as ih =>
    rw [List.mapM_cons, h, ih, List.findSome?_cons]
    cases fault? a with
    | some fault => rfl
    | none => cases as.findSome? fault? <;> rfl

namespace VariableEntry

def refusal? (entry : VariableEntry) : Option SheetError :=
  match entry.variable? with
  | .error fault => some fault
  | .ok v => v.fault?.map (.definition v.name)

/-- An entry has either a value or an expression, and its variable has that and the bounds. -/
inductive Gives : VariableEntry → Variable → Prop
  | value (name : String) (v : Value) (min max : Option Float) :
      Gives ⟨name, some v, none, min, max⟩ ⟨name, .literal v, min, max⟩
  | expression (name text : String) (min max : Option Float) :
      Gives ⟨name, none, some text, min, max⟩ ⟨name, .expression text, min, max⟩

/-- The variables are those of the entries: a name is where it comes first, and its last entry counts. -/
structure Declares (entries : List VariableEntry) (set : VariableSet) : Prop where
  names_eq : set.names = (entries.map (·.name)).eraseDups
  get?_iff : ∀ n v, set.get? n = some v ↔ ∃ entry, entries.reverse.find? (·.name == n) = some entry ∧ entry.Gives v

theorem gives_iff {entry : VariableEntry} {v : Variable} : entry.Gives v ↔ entry.variable? = .ok v := by
  constructor
  · rintro (_ | _) <;> rfl
  · obtain ⟨name, value, expression, min, max⟩ := entry
    intro h
    cases value <;> cases expression <;> cases h <;> constructor

theorem Gives.name_eq {entry : VariableEntry} {v : Variable} (h : entry.Gives v) : v.name = entry.name := by
  cases h <;> rfl

theorem declare_eq (entry : VariableEntry) (set : VariableSet) : entry.variable?.bind set.insert =
    (unlessFault entry.refusal? entry).bind fun entry => entry.variable?.map set.put := by
  cases hv : entry.variable? with
  | error fault =>
    rw [refusal?, hv]
    rfl
  | ok v =>
    have hrefusal : entry.refusal? = v.fault?.map (.definition v.name) := by rw [refusal?, hv]
    change set.insert v = _
    rw [hrefusal, VariableSet.insert_eq]
    cases v.fault? with
    | some fault => rfl
    | none =>
      change _ = entry.variable?.map set.put
      rw [hv]
      rfl

theorem declareAll_concat (entries : List VariableEntry) (entry : VariableEntry) :
    declareAll (entries ++ [entry]) = (declareAll entries).bind fun set => entry.variable?.bind set.insert := by
  unfold declareAll
  rw [List.foldlM_append]
  cases entries.foldlM (fun set e => e.variable?.bind set.insert) VariableSet.empty with
  | error fault => rfl
  | ok set => exact bind_pure (m := Except SheetError) _

theorem Declares.concat {entries : List VariableEntry} {set : VariableSet} (h : Declares entries set)
    {entry : VariableEntry} {v : Variable} (hv : entry.Gives v) : Declares (entries ++ [entry]) (set.put v) where
  names_eq := by
    rw [VariableSet.names_put, h.names_eq, hv.name_eq, List.map_append, List.map_singleton, eraseDups_concat]
    simp only [List.mem_eraseDups]
  get?_iff n w := by
    rw [VariableSet.get?_put, hv.name_eq, List.reverse_append, List.reverse_singleton, List.singleton_append,
      List.find?_cons]
    by_cases hn : entry.name = n
    · rw [if_pos hn, beq_iff_eq.2 hn]
      constructor
      · rintro ⟨⟩
        exact ⟨entry, rfl, hv⟩
      · rintro ⟨_, ⟨⟩, hw⟩
        exact congrArg some (Except.ok.inj ((gives_iff.1 hv).symm.trans (gives_iff.1 hw)))
    · rw [if_neg hn, beq_eq_false_iff_ne.2 hn]
      exact h.get?_iff n w

theorem declareAll_cases (entries : List VariableEntry) :
    (∃ fault, entries.findSome? refusal? = some fault ∧ declareAll entries = .error fault) ∨
    entries.findSome? refusal? = none ∧ ∃ set, declareAll entries = .ok set ∧ Declares entries set := by
  induction entries using List.reverseRecOn with
  | nil => exact .inr ⟨rfl, .empty, rfl, rfl, fun _ _ => by simp [VariableSet.get?, VariableSet.empty]⟩
  | append_singleton entries entry ih =>
    rw [declareAll_concat, List.findSome?_append]
    rcases ih with ⟨fault, hfault, hset⟩ | ⟨hnone, set, hset, hdeclares⟩
    · rw [hfault, hset]
      exact .inl ⟨fault, rfl, rfl⟩
    · have hlast := declare_eq entry set
      rw [hnone, hset, Option.none_or, List.findSome?_singleton]
      cases hrefusal : entry.refusal? with
      | some fault =>
        rw [hrefusal] at hlast
        exact .inl ⟨fault, rfl, hlast⟩
      | none =>
        cases hv : entry.variable? with
        | error fault => simp [refusal?, hv] at hrefusal
        | ok v =>
          rw [hrefusal, hv] at hlast
          exact .inr ⟨rfl, set.put v, hlast.trans (congrArg (Except.map set.put) hv), hdeclares.concat (gives_iff.2 hv)⟩

def declared (entries : List VariableEntry) : VariableSet := (declareAll entries).toOption.getD .empty

theorem declareAll_eq (entries : List VariableEntry) :
    declareAll entries = unlessFault (entries.findSome? refusal?) (declared entries) := by
  unfold declared
  rcases declareAll_cases entries with ⟨fault, hfault, hset⟩ | ⟨hnone, set, hset, _⟩
  · rw [hfault, hset]
    rfl
  · rw [hnone, hset]
    rfl

theorem declares_declared {entries : List VariableEntry} (h : entries.findSome? refusal? = none) :
    Declares entries (declared entries) := by
  rcases declareAll_cases entries with ⟨fault, hfault, _⟩ | ⟨_, set, hset, hdeclares⟩
  · cases h.symm.trans hfault
  · rwa [declared, hset]

end VariableEntry

end LiveSheet
