import LiveSheet.Variable

/-! What lookups see of a declaration and of a freeze. A set is determined by its names and by what it answers for
each of them. -/

namespace LiveSheet

theorem eraseDups_concat (names : List String) (n : String) :
    (names ++ [n]).eraseDups = if n ∈ names then names.eraseDups else names.eraseDups ++ [n] := by
  rw [List.eraseDups_append]
  by_cases hmem : n ∈ names
  · simp [hmem, List.removeAll]
  · simp [hmem, List.removeAll, List.eraseDups_cons]

namespace VariableSet

theorem mem_names_iff {set : VariableSet} {name : String} :
    name ∈ set.names ↔ ∃ v, set.get? name = some v := by
  constructor
  · intro h
    obtain ⟨v, hv, rfl⟩ := List.mem_map.1 h
    exact ⟨v, get?_of_mem hv⟩
  · rintro ⟨v, hv⟩
    exact name_of_get? hv ▸ List.mem_map_of_mem (mem_of_get? hv)

theorem get?_isSome (set : VariableSet) (n : String) : (set.get? n).isSome = true ↔ n ∈ set.names := by
  rw [Option.isSome_iff_exists, mem_names_iff]

theorem ext_get? {set set' : VariableSet} (hnames : set.names = set'.names) (h : ∀ n, set.get? n = set'.get? n) :
    set = set' := by
  have hlength : set.declared.length = set'.declared.length := by
    simpa [names] using congrArg List.length hnames
  have hlist : set.declared = set'.declared := by
    refine List.ext_getElem hlength fun i hi hi' => ?_
    have hname : set.declared[i].name = set'.declared[i].name := by
      have := List.getElem_of_eq hnames (i := i) (by simpa [names] using hi)
      simpa [names] using this
    have hv := get?_of_mem (List.getElem_mem hi)
    have hv' := get?_of_mem (List.getElem_mem hi')
    rw [h, hname, hv'] at hv
    exact (Option.some.inj hv).symm
  exact ext_declared hlist

section Freeze

variable (set : VariableSet) (name : String) (value : Value)

@[simp] theorem names_freeze : (set.freeze name value).names = set.names := by
  simp only [names, declared_freeze, List.map_map]
  refine List.map_congr_left fun v _ => ?_
  by_cases h : v.name = name
  · simp [h]
  · simp [h]

theorem get?_freeze (n : String) : (set.freeze name value).get? n =
    (set.get? n).map fun v => if n = name then v.freeze value else v := by
  have hname : (fun v : Variable => (if v.name = name then v.freeze value else v).name == n) =
      fun v => v.name == n := by
    funext v
    by_cases h : v.name = name <;> simp [h]
  simp only [get?_eq_find?, declared_freeze, List.find?_map, Function.comp_def, hname]
  cases hv : set.declared.find? fun v => v.name == n with
  | none => rfl
  | some v =>
    obtain rfl : v.name = n := by simpa using List.find?_some hv
    rfl

end Freeze

section Put

theorem name_replaced (v w : Variable) : (if w.name = v.name then v else w).name = w.name := by
  split
  · next h => exact h.symm
  · rfl

variable (set : VariableSet) (v : Variable)

theorem names_put : (set.put v).names = if v.name ∈ set.names then set.names else set.names ++ [v.name] := by
  rw [names, declared_put]
  split
  · have hname : Variable.name ∘ (fun w : Variable => if w.name = v.name then v else w) = Variable.name :=
      funext (name_replaced v)
    rw [List.map_map, hname, names]
  · rw [List.map_append, names]
    rfl

theorem get?_put (n : String) : (set.put v).get? n = if v.name = n then some v else set.get? n := by
  have hdeclared := get?_isSome set n
  rw [get?_eq_find?, declared_put]
  split
  · next hmem =>
    have hname : ((fun w : Variable => w.name == n) ∘ fun w => if w.name = v.name then v else w) =
        fun w => w.name == n :=
      funext fun w => congrArg (· == n) (name_replaced v w)
    rw [List.find?_map, hname, ← get?_eq_find?]
    cases hw : set.get? n with
    | none =>
      rw [if_neg, Option.map_none]
      rintro rfl
      rw [hw] at hdeclared
      cases hdeclared.2 hmem
    | some w =>
      have hwn : w.name = n := name_of_get? hw
      rw [Option.map_some, hwn]
      by_cases hn : v.name = n
      · rw [if_pos hn.symm, if_pos hn]
      · rw [if_neg (Ne.symm hn), if_neg hn]
  · next hmem =>
    rw [List.find?_append, ← get?_eq_find?]
    by_cases hn : v.name = n
    · subst hn
      rw [Option.not_isSome_iff_eq_none.1 (mt hdeclared.1 hmem), if_pos rfl]
      simp
    · rw [if_neg hn]
      simp [hn]

end Put

end VariableSet

end LiveSheet
