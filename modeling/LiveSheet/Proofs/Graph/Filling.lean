import LiveSheet.Graph
import Mathlib.Data.List.Nodup

/-! How a graph is filled. Its two lists of edges grow together, variable by variable, and each step keeps one the
transpose of the other, although a variable may be entered as read before its own turn comes. In the graph of a whole
set every edge then leads from a declared variable to another one. -/

namespace LiveSheet

namespace Graph

variable {g g' : Graph} {declared namespaces : NameSet} {vs : List Variable} {v : Variable} {name : String}

/-- The expression of `a` mentions `b`. -/
def Reads (g : Graph) (a b : String) : Prop := b ∈ g.dependencies a

theorem reads_iff {a b : String} : g.Reads a b ↔ b ∈ g.forward.targets a := NameSet.mem_names

theorem mem_referencing {invoked : NameSet} {n : String} :
    n ∈ g.referencing invoked ↔ ∃ owner ∈ invoked, owner ∈ g.namespaceRefs.targets n := by
  simp only [referencing, NameSet.mem_ofNames, List.mem_map, List.mem_filter, List.any_eq_true, NameSet.mem_names,
    Std.ExtTreeSet.contains_iff_mem, Adjacency.mem_targets_iff]
  constructor
  · rintro ⟨entry, ⟨hentry, owner, howner, hinvoked⟩, hname⟩
    exact ⟨owner, hinvoked, entry, hentry, hname, howner⟩
  · rintro ⟨owner, hinvoked, entry, hentry, hname, howner⟩
    exact ⟨entry, ⟨hentry, owner, howner, hinvoked⟩, hname⟩

theorem nodup_dependencies (g : Graph) (name : String) : (g.dependencies name).Nodup := NameSet.nodup_names _

/-- What is added to a graph for a variable that reads some names. -/
structure Extended (name : String) (reads : List String) (g g' : Graph) : Prop where
  names : g'.names = g.names
  namespaceRefs : g'.namespaceRefs = g.namespaceRefs
  mem_forward : ∀ n, n ∈ g'.forward ↔ n ∈ g.forward
  mem_reverse : ∀ n, n ∈ g'.reverse ↔ n ∈ g.reverse ∨ (n ∈ reads ∧ n ≠ name)
  forward : ∀ a b, b ∈ g'.forward.targets a ↔ b ∈ g.forward.targets a ∨ (a = name ∧ b ∈ reads ∧ b ≠ name)
  reverse : ∀ a b, a ∈ g'.reverse.targets b ↔ a ∈ g.reverse.targets b ∨ (a = name ∧ b ∈ reads ∧ b ≠ name)

theorem extended_addEdge (hname : name ∈ g.forward) (dependency : String) :
    Extended name [dependency] g (addEdge name g dependency) := by
  unfold addEdge
  split
  · next heq => constructor <;> simp [heq]
  · next hne =>
    constructor
    case names => rfl
    case namespaceRefs => rfl
    case mem_forward =>
      intro n
      rw [Adjacency.mem_addEdge]
      exact ⟨fun h => h.elim id fun h => h ▸ hname, .inl⟩
    case mem_reverse =>
      intro n
      rw [Adjacency.mem_addEdge, List.mem_singleton]
      exact or_congr_right ⟨fun h => ⟨h, h ▸ hne⟩, And.left⟩
    case forward =>
      intro a b
      rw [Adjacency.mem_targets_addEdge, List.mem_singleton]
      exact or_congr_right (and_congr_right fun _ => ⟨fun h => ⟨h, h ▸ hne⟩, And.left⟩)
    case reverse =>
      intro a b
      rw [Adjacency.mem_targets_addEdge, List.mem_singleton]
      exact or_congr_right ⟨fun h => ⟨h.2, h.1, h.1 ▸ hne⟩, fun h => ⟨h.2.1, h.1⟩⟩

theorem Extended.trans {g'' : Graph} {reads reads' : List String} (h : Extended name reads g g')
    (h' : Extended name reads' g' g'') : Extended name (reads ++ reads') g g'' where
  names := h'.names.trans h.names
  namespaceRefs := h'.namespaceRefs.trans h.namespaceRefs
  mem_forward n := (h'.mem_forward n).trans (h.mem_forward n)
  mem_reverse n := by
    rw [h'.mem_reverse, h.mem_reverse, List.mem_append, or_and_right, or_assoc]
  forward a b := by
    rw [h'.forward, h.forward, List.mem_append, or_and_right, and_or_left, or_assoc]
  reverse a b := by
    rw [h'.reverse, h.reverse, List.mem_append, or_and_right, and_or_left, or_assoc]

theorem extended_foldl (hname : name ∈ g.forward) (reads : List String) :
    Extended name reads g (reads.foldl (addEdge name) g) := by
  induction reads generalizing g with
  | nil => constructor <;> simp
  | cons d reads ih =>
    have hstep := extended_addEdge hname d
    exact hstep.trans (ih ((hstep.mem_forward name).2 hname))

/-- The graph of the variables gone through so far. -/
structure Filled (declared namespaces : NameSet) (vs : List Variable) (g : Graph) : Prop where
  names : g.names = vs.map Variable.name
  mem_forward : ∀ n, n ∈ g.forward ↔ n ∈ g.names
  /-- A variable that was read has an entry, be it declared later. -/
  mem_reverse : ∀ n, n ∈ g.reverse ↔ n ∈ g.names ∨ ∃ a, n ∈ g.forward.targets a
  transposed : ∀ a b, a ∈ g.reverse.targets b ↔ b ∈ g.forward.targets a
  mem_targets : ∀ a b, b ∈ g.forward.targets a ↔ ∃ v ∈ vs, ∃ text, v.name = a ∧ v.expression? = some text ∧
    b ∈ (References.scan text declared namespaces).reads ∧ b ≠ a
  mem_namespaceRefs : ∀ a owner, owner ∈ g.namespaceRefs.targets a ↔ ∃ v ∈ vs, ∃ text, v.name = a ∧
    v.expression? = some text ∧ owner ∈ (References.scan text declared namespaces).namespaces

theorem filled_empty : Filled declared namespaces [] empty := by
  constructor <;> simp [empty]

@[simp] theorem names_addNamespaces (owners : NameSet) : (g.addNamespaces name owners).names = g.names := by
  unfold addNamespaces
  split <;> rfl

@[simp] theorem forward_addNamespaces (owners : NameSet) : (g.addNamespaces name owners).forward = g.forward := by
  unfold addNamespaces
  split <;> rfl

@[simp] theorem reverse_addNamespaces (owners : NameSet) : (g.addNamespaces name owners).reverse = g.reverse := by
  unfold addNamespaces
  split <;> rfl

theorem mem_namespaceRefs_addNamespaces {owners : NameSet} (hnew : ∀ owner, owner ∉ g.namespaceRefs.targets name)
    {a owner : String} : owner ∈ (g.addNamespaces name owners).namespaceRefs.targets a ↔
      owner ∈ g.namespaceRefs.targets a ∨ (name = a ∧ owner ∈ owners) := by
  unfold addNamespaces
  split
  · next hempty => simp [Std.ExtTreeSet.isEmpty_iff.1 hempty]
  · rw [Adjacency.targets_insert]
    by_cases ha : name = a
    · subst ha
      simp [hnew owner]
    · simp [ha]

theorem Filled.addVariable (h : Filled declared namespaces vs g) (hnew : v.name ∉ g.names) :
    Filled declared namespaces (vs ++ [v]) (g.addVariable declared namespaces v) := by
  unfold Graph.addVariable
  cases htext : v.expression? with
  | none =>
    constructor
    case names => simp [addNode, h.names]
    case mem_forward => simp [addNode, h.mem_forward]
    case mem_reverse =>
      intro n
      simp [addNode, h.mem_reverse, or_right_comm]
    case transposed => simp [addNode, h.transposed]
    case mem_targets => simp [addNode, h.mem_targets, or_and_right, exists_or, htext]
    case mem_namespaceRefs => simp [addNode, h.mem_namespaceRefs, or_and_right, exists_or, htext]
  | some text =>
    have hadd : Extended v.name (References.scan text declared namespaces).reads.names (g.addNode v.name) _ :=
      extended_foldl (by simp [addNode]) _
    have hfresh : ∀ owner, owner ∉ g.namespaceRefs.targets v.name := by
      intro owner howner
      obtain ⟨w, hw, _, hname, _⟩ := (h.mem_namespaceRefs _ _).1 howner
      exact hnew (h.names ▸ List.mem_map.2 ⟨w, hw, hname⟩)
    dsimp only
    generalize (References.scan text declared namespaces).reads.names.foldl _ _ = g' at hadd ⊢
    constructor
    case names => simp [hadd.names, addNode, h.names]
    case mem_forward => simp [hadd.names, hadd.mem_forward, addNode, h.mem_forward]
    case mem_reverse =>
      intro n
      simp only [reverse_addNamespaces, hadd.mem_reverse, names_addNamespaces, hadd.names, forward_addNamespaces,
        hadd.forward, exists_or, exists_eq_left, addNode, Adjacency.mem_addNode, Adjacency.targets_addNode,
        h.mem_reverse, List.mem_append, List.mem_singleton, NameSet.mem_names]
      tauto
    case transposed =>
      intro a b
      simp only [reverse_addNamespaces, hadd.reverse, forward_addNamespaces, hadd.forward, addNode,
        Adjacency.targets_addNode, h.transposed]
    case mem_targets =>
      intro a b
      simp only [forward_addNamespaces, hadd.forward, addNode, Adjacency.targets_addNode, h.mem_targets,
        List.mem_append, List.mem_singleton, or_and_right, exists_or, exists_eq_left, htext, Option.some.injEq,
        NameSet.mem_names]
      grind
    case mem_namespaceRefs =>
      intro a owner
      rw [mem_namespaceRefs_addNamespaces (hadd.namespaceRefs ▸ hfresh), hadd.namespaceRefs]
      simp [addNode, h.mem_namespaceRefs, or_and_right, exists_or, htext]

theorem filled_build (definitions : VariableSet) (namespaces : NameSet) :
    Filled definitions.domain namespaces definitions.declared (build definitions namespaces) := by
  have hfold : ∀ vs vs' g, (vs' ++ vs).map Variable.name |>.Nodup → Filled definitions.domain namespaces vs' g →
      Filled definitions.domain namespaces (vs' ++ vs) (vs.foldl (addVariable definitions.domain namespaces) g) := by
    intro vs
    induction vs with
    | nil => exact fun vs' g _ h => (List.append_nil vs').symm ▸ h
    | cons v vs ih =>
      intro vs' g hnodup h
      rw [List.append_cons] at hnodup ⊢
      refine ih (vs' ++ [v]) _ hnodup (h.addVariable ?_)
      rw [h.names]
      intro hmem
      simp only [List.map_append, List.map_cons, List.map_nil, List.nodup_append] at hnodup
      exact hnodup.1.2.2 v.name hmem v.name List.mem_cons_self rfl
  exact hfold definitions.declared [] empty definitions.nodup filled_empty

/-- The two lists of edges have an entry for each node, and one is the transpose of the other. -/
structure Coherent (g : Graph) : Prop where
  nodup : g.names.Nodup
  mem_forward : ∀ n, n ∈ g.forward ↔ n ∈ g.names
  mem_reverse : ∀ n, n ∈ g.reverse ↔ n ∈ g.names
  transposed : ∀ a b, a ∈ g.reverse.targets b ↔ b ∈ g.forward.targets a

namespace Coherent

theorem mem_dependents (hg : g.Coherent) {a b : String} : a ∈ g.dependents b ↔ g.Reads a b :=
  NameSet.mem_names.trans ((hg.transposed a b).trans reads_iff.symm)

theorem source_mem (hg : g.Coherent) {a b : String} (h : g.Reads a b) : a ∈ g.names :=
  (hg.mem_forward a).1 (Adjacency.mem_of_mem_targets (reads_iff.1 h))

theorem target_mem (hg : g.Coherent) {a b : String} (h : g.Reads a b) : b ∈ g.names :=
  (hg.mem_reverse b).1 (Adjacency.mem_of_mem_targets ((hg.transposed a b).2 (reads_iff.1 h)))

end Coherent

section Build
variable (definitions : VariableSet) (namespaces : NameSet)

@[simp] theorem names_build : (build definitions namespaces).names = definitions.names :=
  (filled_build definitions namespaces).names

theorem nodup_names_build : (build definitions namespaces).names.Nodup := by
  rw [names_build]
  exact definitions.nodup

variable {definitions namespaces}

theorem reads_build {a b : String} : (build definitions namespaces).Reads a b ↔
    ∃ v text, definitions.get? a = some v ∧ v.expression? = some text ∧
      b ∈ (References.scan text definitions.domain namespaces).reads ∧ b ≠ a := by
  rw [reads_iff, (filled_build definitions namespaces).mem_targets]
  constructor
  · rintro ⟨v, hv, text, rfl, h⟩
    exact ⟨v, text, VariableSet.get?_of_mem hv, h⟩
  · rintro ⟨v, text, hv, h⟩
    exact ⟨v, VariableSet.mem_of_get? hv, text, VariableSet.name_of_get? hv, h⟩

theorem reads_build_iff (namespaces' : NameSet) {a b : String} :
    (build definitions namespaces).Reads a b ↔ (build definitions namespaces').Reads a b := by
  simp only [reads_build, References.scan]

theorem mem_referencing_build {invoked : NameSet} {n : String} :
    n ∈ (build definitions namespaces).referencing invoked ↔ ∃ v text, definitions.get? n = some v ∧
      v.expression? = some text ∧
        ∃ owner ∈ (References.scan text definitions.domain namespaces).namespaces, owner ∈ invoked := by
  simp only [mem_referencing, (filled_build definitions namespaces).mem_namespaceRefs]
  constructor
  · rintro ⟨owner, hinvoked, v, hv, text, rfl, htext, howner⟩
    exact ⟨v, text, VariableSet.get?_of_mem hv, htext, owner, howner, hinvoked⟩
  · rintro ⟨v, text, hv, htext, owner, howner, hinvoked⟩
    exact ⟨owner, hinvoked, v, VariableSet.mem_of_get? hv, text, VariableSet.name_of_get? hv, htext, howner⟩

theorem coherent_build : (build definitions namespaces).Coherent := by
  have hfilled := filled_build definitions namespaces
  refine ⟨nodup_names_build definitions namespaces, hfilled.mem_forward, fun n => (hfilled.mem_reverse n).trans ?_,
    hfilled.transposed⟩
  refine or_iff_left_of_imp ?_
  rintro ⟨a, ha⟩
  obtain ⟨_, text, _, _, hn, _⟩ := reads_build.1 (reads_iff.2 ha)
  simp only [References.scan, NameSet.mem_ofNames, List.mem_flatMap, References.variablesOf, List.mem_filter] at hn
  obtain ⟨_, _, _, hdeclared⟩ := hn
  rw [names_build]
  simpa [VariableSet.domain_eq] using hdeclared

end Build

end Graph

end LiveSheet
