import Std.Data.ExtTreeMap
import Std.Data.ExtTreeSet

/-!
Maps and sets keyed by names. Both are listed in ascending order of the names, character by
character, and two of them with the same entries are equal.
-/

namespace LiveSheet

abbrev NameMap (α : Type) := Std.ExtTreeMap String α

abbrev NameSet := Std.ExtTreeSet String

namespace NameSet

def ofNames (names : List String) : NameSet := names.foldl (·.insert ·) ∅

def names (s : NameSet) : List String := s.toList

@[simp] theorem mem_ofNames {names : List String} {n : String} : n ∈ ofNames names ↔ n ∈ names := by
  unfold ofNames
  suffices h : ∀ s : NameSet, n ∈ names.foldl (·.insert ·) s ↔ n ∈ s ∨ n ∈ names by
    simpa using h ∅
  intro s
  induction names generalizing s with
  | nil => simp
  | cons a as ih =>
    rw [List.foldl_cons, ih, Std.ExtTreeSet.mem_insert, Std.compare_eq_iff_eq, List.mem_cons,
      eq_comm (a := a), or_comm (a := n = a), or_assoc]

@[simp] theorem mem_names {s : NameSet} {n : String} : n ∈ s.names ↔ n ∈ s := Std.ExtTreeSet.mem_toList

theorem nodup_names (s : NameSet) : s.names.Nodup :=
  s.distinct_toList.imp fun h heq => h (Std.compare_eq_iff_eq.2 heq)

end NameSet

namespace NameMap

/-- The map of a list of entries; a later entry replaces an earlier one of the same name. -/
def ofEntries {α : Type} (entries : List (String × α)) : NameMap α :=
  entries.foldl (fun m (k, v) => m.insert k v) ∅

def domain {α : Type} (m : NameMap α) : NameSet := NameSet.ofNames m.keys

theorem get?_insert {α : Type} (m : NameMap α) (k n : String) (v : α) :
    (m.insert k v)[n]? = if k = n then some v else m[n]? := by
  rw [Std.ExtTreeMap.getElem?_insert]
  simp only [Std.compare_eq_iff_eq]

theorem mem_of_get?_ofEntries {α : Type} {entries : List (String × α)} {n : String} {a : α}
    (h : (ofEntries entries)[n]? = some a) : (n, a) ∈ entries := by
  have hfold : ∀ (entries : List (String × α)) (m : NameMap α),
      (entries.foldl (fun m entry => m.insert entry.1 entry.2) m)[n]? = some a → m[n]? = some a ∨ (n, a) ∈ entries := by
    intro entries
    induction entries with
    | nil => exact fun m h => .inl h
    | cons entry entries ih =>
      intro m h
      rcases ih _ h with h | h
      · rw [get?_insert] at h
        split at h
        · next heq =>
          obtain rfl := Option.some.inj h
          exact .inr (List.mem_cons.2 (.inl (by rw [← heq])))
        · exact .inl h
      · exact .inr (List.mem_cons_of_mem _ h)
  refine (hfold entries ∅ h).resolve_left fun h => ?_
  simp at h

def positions (names : List String) : NameMap Nat := ofEntries names.zipIdx

theorem positions_concat (names : List String) (n : String) :
    positions (names ++ [n]) = (positions names).insert n names.length := by
  simp [positions, ofEntries, List.zipIdx_append]

theorem get?_positions {names : List String} (hnodup : names.Nodup) {n : String} {i : Nat} :
    (positions names)[n]? = some i ↔ names[i]? = some n := by
  obtain ⟨backwards, rfl⟩ : ∃ backwards, names = backwards.reverse := ⟨names.reverse, by simp⟩
  -- the last name is inserted last, so the induction runs from the end of the list
  induction backwards with
  | nil => simp [positions, ofEntries]
  | cons last backwards ih =>
    rw [List.reverse_cons] at hnodup ⊢
    have hlast : last ∉ backwards.reverse := fun hmem =>
      (List.nodup_append.1 hnodup).2.2 last hmem last List.mem_cons_self rfl
    have hfront := ih (List.nodup_append.1 hnodup).1
    generalize backwards.reverse = front at hlast hfront ⊢
    rw [positions_concat, get?_insert, List.getElem?_append]
    by_cases hi : i < front.length
    · have hne : front.length ≠ i := Nat.ne_of_gt hi
      rw [if_pos hi]
      by_cases hn : last = n
      · subst hn
        simpa [hne] using fun h => hlast (List.mem_of_getElem? h)
      · rw [if_neg hn, hfront]
    · have habsent : front[i]? ≠ some n := by simp [List.getElem?_eq_none (Nat.le_of_not_lt hi)]
      rw [if_neg hi, List.getElem?_singleton]
      by_cases hn : last = n
      · subst hn
        simp
        omega
      · simp [hn, hfront, habsent]

theorem mem_keys_iff {α : Type} (m : NameMap α) (n : String) : n ∈ m.keys ↔ ∃ v, m[n]? = some v := by
  rw [Std.ExtTreeMap.mem_keys, Std.ExtTreeMap.mem_iff_isSome_getElem?, Option.isSome_iff_exists]

theorem nodup_keys {α : Type} (m : NameMap α) : m.keys.Nodup :=
  Std.ExtTreeMap.distinct_keys.imp fun h heq => h (Std.compare_eq_iff_eq.2 heq)

theorem nodup_toList {α : Type} (m : NameMap α) : (m.toList.map Prod.fst).Nodup := by
  rw [Std.ExtTreeMap.map_fst_toList_eq_keys]
  exact nodup_keys m

theorem lookup_eq_none {α : Type} {entries : List (String × α)} {n : String} (h : n ∉ entries.map Prod.fst) :
    entries.lookup n = none := by
  refine List.lookup_eq_none_iff.2 fun p hp => bne_iff_ne.2 fun heq => ?_
  exact h (heq ▸ List.mem_map_of_mem hp)

theorem lookup_toList {α : Type} (m : NameMap α) (n : String) : m.toList.lookup n = m[n]? := by
  cases hv : m[n]? with
  | none =>
    refine lookup_eq_none fun hmem => ?_
    rw [Std.ExtTreeMap.map_fst_toList_eq_keys, mem_keys_iff, hv] at hmem
    obtain ⟨v, hv⟩ := hmem
    cases hv
  | some v =>
    obtain ⟨before, behind, heq⟩ := List.append_of_mem (Std.ExtTreeMap.mem_toList_iff_getElem?_eq_some.2 hv)
    have hnodup := heq ▸ nodup_toList m
    rw [List.map_append, List.map_cons, List.nodup_append] at hnodup
    refine List.lookup_eq_some_iff.2 ⟨before, behind, heq, fun p hp => ?_⟩
    exact bne_iff_ne.2 (Ne.symm (hnodup.2.2 p.1 (List.mem_map_of_mem hp) n List.mem_cons_self))

theorem get?_foldl_insert {α β : Type} (f : String → α → β) {entries : List (String × α)}
    (hnodup : (entries.map Prod.fst).Nodup) (m : NameMap β) (n : String) :
    (entries.foldl (fun m entry => m.insert entry.1 (f entry.1 entry.2)) m)[n]? =
      ((entries.lookup n).map (f n)).or m[n]? := by
  induction entries generalizing m with
  | nil => rfl
  | cons entry entries ih =>
    obtain ⟨hhead, htail⟩ := List.nodup_cons.1 hnodup
    rw [List.foldl_cons, ih htail, get?_insert, List.lookup_cons]
    by_cases hn : entry.1 = n
    · subst hn
      rw [lookup_eq_none hhead, beq_self_eq_true, if_pos rfl]
      rfl
    · rw [if_neg hn, beq_eq_false_iff_ne.2 (Ne.symm hn)]

theorem get?_foldl_toList {α β : Type} (f : String → α → β) (m : NameMap α) (m' : NameMap β) (n : String) :
    (m.toList.foldl (fun m entry => m.insert entry.1 (f entry.1 entry.2)) m')[n]? =
      (m[n]?.map (f n)).or m'[n]? := by
  rw [get?_foldl_insert f (nodup_toList m), lookup_toList]

theorem ofEntries_map_toList {α β : Type} (f : α → β) (m : NameMap α) :
    ofEntries (m.toList.map fun entry => (entry.1, f entry.2)) = m.map fun _ => f := by
  refine Std.ExtTreeMap.ext_getElem? fun n => ?_
  rw [ofEntries, List.foldl_map, get?_foldl_toList (fun _ => f), Std.ExtTreeMap.getElem?_map,
    Std.ExtTreeMap.getElem?_empty, Option.or_none]

end NameMap

end LiveSheet
