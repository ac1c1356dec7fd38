import LiveSheet.Names

/-!
Edges between names, listed by their sources, and what is reached along them.
-/

namespace LiveSheet

/-- The ends of the edges that start at each name. -/
abbrev Adjacency := NameMap NameSet

namespace Adjacency

def targets (edges : Adjacency) (name : String) : NameSet := edges.getD name ∅

def addNode (edges : Adjacency) (name : String) : Adjacency := edges.insertIfNew name ∅

def addEdge (edges : Adjacency) (source target : String) : Adjacency :=
  edges.insert source ((edges.targets source).insert target)

@[simp] theorem mem_targets_empty {source n : String} : n ∉ targets ∅ source := by
  simp [targets]

theorem mem_targets_iff {edges : Adjacency} {source n : String} :
    n ∈ edges.targets source ↔ ∃ entry ∈ edges.toList, entry.1 = source ∧ n ∈ entry.2 := by
  rw [targets, Std.ExtTreeMap.getD_eq_getD_getElem?]
  constructor
  · cases h : edges[source]? with
    | none => simp
    | some names => exact fun hn => ⟨(source, names), Std.ExtTreeMap.mem_toList_iff_getElem?_eq_some.2 h, rfl, hn⟩
  · rintro ⟨⟨_, names⟩, hentry, rfl, hn⟩
    rwa [Std.ExtTreeMap.mem_toList_iff_getElem?_eq_some.1 hentry]

theorem mem_of_mem_targets {edges : Adjacency} {source n : String} (h : n ∈ edges.targets source) : source ∈ edges := by
  obtain ⟨⟨_, names⟩, hentry, rfl, _⟩ := mem_targets_iff.1 h
  exact Std.ExtTreeMap.mem_iff_isSome_getElem?.2
    (Option.isSome_of_eq_some (Std.ExtTreeMap.mem_toList_iff_getElem?_eq_some.1 hentry))

@[simp] theorem targets_addNode (edges : Adjacency) (name source : String) :
    (edges.addNode name).targets source = edges.targets source := by
  rw [targets, addNode, Std.ExtTreeMap.getD_insertIfNew]
  split
  · next h =>
    obtain rfl := Std.compare_eq_iff_eq.1 h.1
    rw [targets, Std.ExtTreeMap.getD_eq_fallback h.2]
  · rfl

@[simp] theorem mem_addNode {edges : Adjacency} {name n : String} : n ∈ edges.addNode name ↔ n ∈ edges ∨ n = name := by
  rw [addNode, Std.ExtTreeMap.mem_insertIfNew, Std.compare_eq_iff_eq, or_comm, eq_comm]

theorem targets_insert (edges : Adjacency) (name source : String) (names : NameSet) :
    targets (edges.insert name names) source = if name = source then names else edges.targets source := by
  rw [targets, Std.ExtTreeMap.getD_insert]
  simp only [Std.compare_eq_iff_eq]
  rfl

@[simp] theorem mem_targets_addEdge {edges : Adjacency} {source target m n : String} :
    n ∈ (edges.addEdge source target).targets m ↔ n ∈ edges.targets m ∨ m = source ∧ n = target := by
  rw [addEdge, targets_insert]
  by_cases hm : source = m
  · rw [if_pos hm, hm, Std.ExtTreeSet.mem_insert, Std.compare_eq_iff_eq, or_comm]
    simp [eq_comm]
  · rw [if_neg hm]
    simp [Ne.symm hm]

@[simp] theorem mem_addEdge {edges : Adjacency} {source target n : String} :
    n ∈ edges.addEdge source target ↔ n ∈ edges ∨ n = source := by
  rw [addEdge, Std.ExtTreeMap.mem_insert, Std.compare_eq_iff_eq, or_comm, eq_comm]

def edgeCount (edges : Adjacency) : Nat := edges.toList.foldl (fun count entry => count + entry.2.size) 0

/-- Marks a name as seen. One that is new is left to be followed. -/
def discover (found : List String × NameSet) (name : String) : List String × NameSet :=
  if name ∈ found.2 then found else (name :: found.1, found.2.insert name)

theorem mem_foldl_discover (names : List String) (found : List String × NameSet) (n : String) :
    n ∈ (names.foldl discover found).2 ↔ n ∈ found.2 ∨ n ∈ names := by
  induction names generalizing found with
  | nil => simp
  | cons a names ih =>
    rw [List.foldl_cons, ih, discover]
    split <;> grind [Std.compare_eq_iff_eq]

theorem foldl_discover_of_seen (names : List String) (found : List String × NameSet)
    (h : ∀ n ∈ names, n ∈ found.2) : names.foldl discover found = found := by
  induction names with
  | nil => rfl
  | cons a names ih =>
    rw [List.foldl_cons, discover, if_pos (h a List.mem_cons_self)]
    exact ih fun n hn => h n (List.mem_cons_of_mem a hn)

def unseen (edges : Adjacency) (seen : NameSet) : List String :=
  (edges.toList.flatMap fun entry => entry.2.names).filter (· ∉ seen)

theorem mem_unseen {edges : Adjacency} {seen : NameSet} {name n : String} (hn : n ∈ edges.targets name)
    (hnew : n ∉ seen) : n ∈ edges.unseen seen := by
  obtain ⟨entry, hentry, _, hn⟩ := mem_targets_iff.1 hn
  exact List.mem_filter.2 ⟨List.mem_flatMap.2 ⟨entry, hentry, NameSet.mem_names.2 hn⟩, decide_eq_true hnew⟩

/-- Each name is followed once, so either fewer are left or nothing was found. -/
theorem unseen_discover (edges : Adjacency) (name : String) (pending : List String) (seen : NameSet) :
    let found := (edges.targets name).names.foldl discover (pending, seen)
    (edges.unseen found.2).length < (edges.unseen seen).length ∨ found = (pending, seen) := by
  intro found
  by_cases hnew : ∃ n ∈ edges.targets name, n ∉ seen
  · obtain ⟨n, hn, hnew⟩ := hnew
    have hfilter : edges.unseen found.2 = (edges.unseen seen).filter (· ∉ found.2) := by
      rw [unseen, unseen, List.filter_filter]
      refine List.filter_congr fun m _ => ?_
      simp only [found, mem_foldl_discover]
      grind
    refine .inl ?_
    rw [hfilter, List.length_filter_lt_length_iff_exists]
    refine ⟨n, mem_unseen hn hnew, ?_⟩
    simpa [found, mem_foldl_discover] using fun _ => hn
  · refine .inr (foldl_discover_of_seen _ _ fun n hn => Decidable.byContradiction fun h => hnew ?_)
    exact ⟨n, NameSet.mem_names.1 hn, h⟩

/-- The names that edges lead to from those that are pending, with all that was seen. -/
def follow (edges : Adjacency) (pending : List String) (seen : NameSet) : NameSet :=
  match pending with
  | [] => seen
  | name :: pending =>
    let found := (edges.targets name).names.foldl discover (pending, seen)
    follow edges found.1 found.2
termination_by ((edges.unseen seen).length, pending.length)
decreasing_by
  rcases edges.unseen_discover name pending seen with h | h
  · exact .left _ _ h
  · rw [h]
    exact .right _ (by simp)

def closure (edges : Adjacency) (names : NameSet) : NameSet :=
  let seen : NameSet := names.filter edges.contains
  edges.follow seen.names.reverse seen

end Adjacency

end LiveSheet
