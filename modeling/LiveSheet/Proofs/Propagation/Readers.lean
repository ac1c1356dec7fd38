import LiveSheet.Propagation
import LiveSheet.Proofs.Graph.Reach
import LiveSheet.Proofs.Resolution.Pass

/-! What reads the names of an enclosing scope. It is what would read them if they were declared along with the
variables, as literals: whether a text reads a name does not depend on which other names there are. -/

namespace LiveSheet

namespace References

theorem mem_scan_congr {text n : String} {declared declared' namespaces namespaces' : NameSet}
    (h : n ∈ (scan text declared namespaces).reads) (hn : n ∈ declared') :
    n ∈ (scan text declared' namespaces').reads := by
  simp only [scan, NameSet.mem_ofNames, List.mem_flatMap, variablesOf, List.mem_filter] at h ⊢
  obtain ⟨w, hw, hmem, _⟩ := h
  exact ⟨w, hw, hmem, hn⟩

theorem mem_declared_of_scan {text n : String} {declared namespaces : NameSet}
    (h : n ∈ (scan text declared namespaces).reads) : n ∈ declared := by
  simp only [scan, NameSet.mem_ofNames, List.mem_flatMap, variablesOf, List.mem_filter] at h
  obtain ⟨_, _, _, hn⟩ := h
  exact hn

end References

namespace VariableSet

theorem insertAll_eq (set : VariableSet) {vs : List Variable} (hfault : ∀ v ∈ vs, v.fault? = none)
    (hnodup : ((set.declared ++ vs).map Variable.name).Nodup) :
    set.insertAll vs = .ok { declared := set.declared ++ vs, nodup := hnodup } := by
  induction vs generalizing set with
  | nil => exact congrArg Except.ok (ext_declared (List.append_nil _).symm)
  | cons v vs ih =>
    obtain ⟨hv, hvs⟩ := List.forall_mem_cons.1 hfault
    have hname : v.name ∉ set.names := by
      rw [List.map_append, List.nodup_append] at hnodup
      exact fun hmem => hnodup.2.2 _ hmem _ (List.mem_map_of_mem List.mem_cons_self) rfl
    have hput : (set.put v).declared = set.declared ++ [v] := by
      rw [declared_put, if_neg hname]
    have hrest := ih (set.put v) hvs (by rwa [hput, List.append_assoc])
    rw [insertAll, List.foldlM_cons, insert_eq, hv]
    exact hrest.trans (by simp only [hput, List.append_assoc, List.singleton_append])

theorem get?_append {set extended : VariableSet} {vs : List Variable} (h : extended.declared = set.declared ++ vs)
    {n : String} (hn : n ∈ set.names) : extended.get? n = set.get? n := by
  obtain ⟨v, hv⟩ := mem_names_iff.1 hn
  rw [get?_eq_find?, h, List.find?_append, ← get?_eq_find?, hv, Option.some_or]

end VariableSet

namespace Propagation

variable {definitions : VariableSet} {names names' : NameSet}

theorem mem_readersOf {n : String} : n ∈ readersOf definitions names ↔ n ∉ names ∧ ∃ v text,
    definitions.get? n = some v ∧ v.expression? = some text ∧ ∃ m, m ∈ (References.scan text names ∅).reads := by
  have hreads : ∀ reads : NameSet, (!reads.isEmpty) = true ↔ ∃ m, m ∈ reads := by
    intro reads
    rw [Bool.not_eq_true', Bool.eq_false_iff, Ne, Std.ExtTreeSet.isEmpty_iff]
    refine ⟨fun hne => ?_, fun ⟨m, hm⟩ hempty => Std.ExtTreeSet.not_mem_empty (hempty ▸ hm)⟩
    by_contra hnone
    exact hne (Std.ExtTreeSet.ext_mem fun m =>
      ⟨fun hm => absurd ⟨m, hm⟩ hnone, fun hm => absurd hm Std.ExtTreeSet.not_mem_empty⟩)
  have hcontains : ∀ n, (!names.contains n) = true ↔ n ∉ names := by
    intro n
    rw [Bool.not_eq_true', Bool.eq_false_iff, Ne, Std.ExtTreeSet.contains_iff_mem]
  simp only [readersOf, NameSet.mem_ofNames, List.mem_map, List.mem_filter, Bool.and_eq_true, Option.any_eq_true, hreads,
    hcontains]
  constructor
  · rintro ⟨v, ⟨hv, hname, text, htext, hm⟩, rfl⟩
    exact ⟨hname, v, text, VariableSet.get?_of_mem hv, htext, hm⟩
  · rintro ⟨hn, v, text, hv, htext, hm⟩
    obtain rfl : v.name = n := VariableSet.name_of_get? hv
    exact ⟨v, ⟨VariableSet.mem_of_get? hv, hn, text, htext, hm⟩, rfl⟩

/-- Names that the variables could be declared along with. -/
structure Free (definitions : VariableSet) (names : NameSet) : Prop where
  valid : ∀ n ∈ names, Text.isVariableName n.toList = true
  fresh : ∀ n ∈ names, n ∉ definitions.names

def literals (names : NameSet) (values : String → Value) : List Variable :=
  names.names.map fun n => ⟨n, .literal (values n), none, none⟩

theorem names_literals (names : NameSet) (values : String → Value) :
    (literals names values).map Variable.name = names.names := by
  rw [literals, List.map_map]
  exact List.map_id' _

namespace Free

theorem insertAll_literals (h : Free definitions names) (values : String → Value) : ∃ extended,
    definitions.insertAll (literals names values) = .ok extended ∧
      extended.declared = definitions.declared ++ literals names values := by
  have hnodup : ((definitions.declared ++ literals names values).map Variable.name).Nodup := by
    rw [List.map_append, names_literals, List.nodup_append]
    refine ⟨definitions.nodup, NameSet.nodup_names names, ?_⟩
    rintro n hn _ hn' rfl
    exact h.fresh n (NameSet.mem_names.1 hn') hn
  refine ⟨_, definitions.insertAll_eq (fun v hv => ?_) hnodup, rfl⟩
  obtain ⟨n, hn, rfl⟩ := List.mem_map.1 hv
  simp [Variable.fault?, h.valid n (NameSet.mem_names.1 hn)]

theorem not_mem (h : Free definitions names) {n : String} {v : Variable} (hv : definitions.get? n = some v) : n ∉ names :=
  fun hn => h.fresh n hn (VariableSet.mem_names_iff.2 ⟨v, hv⟩)

theorem readersOf_union (h : Free definitions names) (h' : Free definitions names') :
    readersOf definitions (names ∪ names') = readersOf definitions names ∪ readersOf definitions names' := by
  refine Std.ExtTreeSet.ext_mem fun n => ?_
  simp only [Std.ExtTreeSet.mem_union_iff, mem_readersOf]
  constructor
  · rintro ⟨_, v, text, hv, htext, m, hm⟩
    rcases Std.ExtTreeSet.mem_union_iff.1 (References.mem_declared_of_scan hm) with hmem | hmem
    · exact .inl ⟨h.not_mem hv, v, text, hv, htext, m, References.mem_scan_congr hm hmem⟩
    · exact .inr ⟨h'.not_mem hv, v, text, hv, htext, m, References.mem_scan_congr hm hmem⟩
  · have hfree : ∀ {v}, definitions.get? n = some v → ¬(n ∈ names ∨ n ∈ names') := fun hv =>
      not_or.2 ⟨h.not_mem hv, h'.not_mem hv⟩
    rintro (⟨_, v, text, hv, htext, m, hm⟩ | ⟨_, v, text, hv, htext, m, hm⟩)
    · exact ⟨hfree hv, v, text, hv, htext, m,
        References.mem_scan_congr hm (Std.ExtTreeSet.mem_union_of_left (References.mem_declared_of_scan hm))⟩
    · exact ⟨hfree hv, v, text, hv, htext, m,
        References.mem_scan_congr hm (Std.ExtTreeSet.mem_union_of_right (References.mem_declared_of_scan hm))⟩

section

variable {extended : VariableSet} {values : String → Value} (h : Free definitions names)
  (hextended : extended.declared = definitions.declared ++ literals names values)

include hextended

theorem mem_names_extended {n : String} : n ∈ extended.names ↔ n ∈ definitions.names ∨ n ∈ names := by
  rw [VariableSet.names, hextended, List.map_append, names_literals, List.mem_append, NameSet.mem_names]
  rfl

theorem reads_extended {namespaces : NameSet} {a b : String} (ha : a ∈ definitions.names) (hb : b ∈ definitions.names) :
    (Graph.build extended namespaces).Reads a b ↔ (Graph.build definitions namespaces).Reads a b := by
  simp only [Graph.reads_build, VariableSet.get?_append hextended ha]
  have hdomain : b ∈ extended.domain ∧ b ∈ definitions.domain := by
    simp [VariableSet.domain_eq, mem_names_extended hextended, hb]
  constructor
  · rintro ⟨v, text, hv, htext, hreads, hne⟩
    exact ⟨v, text, hv, htext, References.mem_scan_congr hreads hdomain.2, hne⟩
  · rintro ⟨v, text, hv, htext, hreads, hne⟩
    exact ⟨v, text, hv, htext, References.mem_scan_congr hreads hdomain.1, hne⟩

include h

theorem mem_readersOf_extended {namespaces : NameSet} {n : String} : n ∈ readersOf definitions names ↔
    n ∈ definitions.names ∧ ∃ m ∈ names, (Graph.build extended namespaces).Reads n m := by
  simp only [mem_readersOf, Graph.reads_build]
  constructor
  · rintro ⟨hn, v, text, hv, htext, m, hm⟩
    have hmem := VariableSet.mem_names_iff.2 ⟨v, hv⟩
    have hdeclared := References.mem_declared_of_scan hm
    refine ⟨hmem, m, hdeclared, v, text, ?_, htext, References.mem_scan_congr hm ?_, ?_⟩
    · rwa [VariableSet.get?_append hextended hmem]
    · simp [VariableSet.domain_eq, mem_names_extended hextended, hdeclared]
    · rintro rfl
      exact hn hdeclared
  · rintro ⟨hmem, m, hm, v, text, hv, htext, hreads, _⟩
    rw [VariableSet.get?_append hextended hmem] at hv
    exact ⟨h.not_mem hv, v, text, hv, htext, m, References.mem_scan_congr hreads hm⟩

end

end Free

/-- Declared as literals along with the variables, the names have edges from their readers and from no other variable,
and the edges between the variables stay. What reads one of two sets of names reads one of the names of both. -/
theorem readersOf_dependencies (definitions : VariableSet) (names : NameSet) (values : String → Value) (namespaces : NameSet)
    (h : Free definitions names) : ∃ extended, definitions.insertAll (literals names values) = .ok extended ∧
      (∀ n, n ∈ readersOf definitions names ↔
        n ∈ definitions.names ∧ ∃ m ∈ names, m ∈ (Graph.build extended namespaces).dependencies n) ∧
      (∀ a ∈ definitions.names, ∀ b ∈ definitions.names, b ∈ (Graph.build extended namespaces).dependencies a ↔
        b ∈ (Graph.build definitions namespaces).dependencies a) ∧
      ∀ names', Free definitions names' →
        readersOf definitions (names ∪ names') = readersOf definitions names ∪ readersOf definitions names' := by
  obtain ⟨extended, hinsert, hextended⟩ := h.insertAll_literals values
  exact ⟨extended, hinsert, fun _ => h.mem_readersOf_extended hextended,
    fun _ ha _ hb => Free.reads_extended hextended ha hb, fun _ h' => h.readersOf_union h'⟩

def wounds : VariableSet where
  declared := [⟨"local", .expression "hp + 1", none, none⟩, ⟨"copy", .expression "this['level'] + local", none, none⟩,
    ⟨"other", .expression "mana", none, none⟩]
  nodup := by decide

theorem readersOf_dependencies_wounds : Free wounds (NameSet.ofNames ["hp", "level"]) ∧
    readersOf wounds (NameSet.ofNames ["hp", "level"]) = NameSet.ofNames ["local", "copy"] ∧
    ∃ extended, wounds.insertAll (literals (NameSet.ofNames ["hp", "level"]) fun _ => .null) = .ok extended ∧
      (∃ m ∈ NameSet.ofNames ["hp", "level"], m ∈ (Graph.build extended ∅).dependencies "copy") ∧
      "local" ∈ (Graph.build extended ∅).dependencies "copy" := by
  have hfree : Free wounds (NameSet.ofNames ["hp", "level"]) := by
    constructor
    all_goals
      simp only [NameSet.mem_ofNames]
      decide
  obtain ⟨extended, hinsert, hreaders, hkept, _⟩ := readersOf_dependencies wounds (NameSet.ofNames ["hp", "level"])
    (fun _ => .null) ∅ hfree
  have hwounds : readersOf wounds (NameSet.ofNames ["hp", "level"]) = NameSet.ofNames ["local", "copy"] :=
    congrArg NameSet.ofNames (by decide +kernel)
  refine ⟨hfree, hwounds, extended, hinsert, ?_, ?_⟩
  · exact ((hreaders "copy").1 (hwounds ▸ NameSet.mem_ofNames.2 (by decide))).2
  · exact (hkept "copy" (by decide) "local" (by decide)).2 (by decide +kernel)

end Propagation

end LiveSheet
