import LiveSheet.Proofs.Graph.Reach
import Mathlib.Data.Set.Card

/-! The graph of some variables is what the scans of their texts say. Its edges are read off the texts one by one, both
ways around, and counted once each; what its two closures find are the declared variables at the ends of chains. -/

namespace LiveSheet.Graph
open Relation (ReflTransGen)

def edges (g : Graph) : List (String × String) := g.forward.toList.flatMap fun entry => entry.2.names.map (entry.1, ·)

theorem edgeCount_eq_length (g : Graph) : g.edgeCount = g.edges.length := by
  have hsize : ∀ entry : String × NameSet, (entry.2.names.map (entry.1, ·)).length = entry.2.size := fun entry => by
    rw [List.length_map, NameSet.names, Std.ExtTreeSet.length_toList]
  rw [edgeCount, Adjacency.edgeCount, edges, List.length_flatMap, List.sum_eq_foldl, List.foldl_map]
  simp only [hsize]

theorem mem_edges {g : Graph} {a b : String} : (a, b) ∈ g.edges ↔ g.Reads a b := by
  simp only [edges, List.mem_flatMap, List.mem_map, Prod.mk.injEq, reads_iff, Adjacency.mem_targets_iff, NameSet.mem_names]
  constructor
  · rintro ⟨entry, hentry, _, hb, hname, rfl⟩
    exact ⟨entry, hentry, hname, hb⟩
  · rintro ⟨entry, hentry, hname, hb⟩
    exact ⟨entry, hentry, b, hb, hname, rfl⟩

theorem nodup_edges (g : Graph) : g.edges.Nodup := by
  refine List.nodup_flatMap.2 ⟨fun entry _ => ?_, ?_⟩
  · exact (NameSet.nodup_names entry.2).map fun _ _ heq => (Prod.mk.inj heq).2
  · refine (List.pairwise_map.1 (NameMap.nodup_toList g.forward)).imp fun hne => ?_
    rintro ⟨a, b⟩ h h'
    obtain ⟨_, _, heq⟩ := List.mem_map.1 h
    obtain ⟨_, _, heq'⟩ := List.mem_map.1 h'
    exact hne ((Prod.mk.inj heq).1.trans (Prod.mk.inj heq').1.symm)

theorem encard_reads (g : Graph) : {e : String × String | g.Reads e.1 e.2}.encard = g.edgeCount := by
  have hset : {e : String × String | g.Reads e.1 e.2} = (g.edges.toFinset : Set (String × String)) := by
    ext ⟨a, b⟩
    rw [Finset.mem_coe, List.mem_toFinset, mem_edges]
    rfl
  rw [hset, Set.encard_coe_eq_coe_finsetCard, List.toFinset_card_of_nodup g.nodup_edges, edgeCount_eq_length]

namespace Coherent

variable {g : Graph} {names : NameSet} {a b n : String}

theorem mem_source (hg : g.Coherent) (hb : b ∈ g.names) (h : ReflTransGen g.Reads a b) : a ∈ g.names := by
  rcases h.cases_head with rfl | ⟨c, ha, _⟩
  · exact hb
  · exact hg.source_mem ha

theorem mem_target (hg : g.Coherent) (ha : a ∈ g.names) (h : ReflTransGen g.Reads a b) : b ∈ g.names := by
  rcases h.cases_tail with rfl | ⟨c, _, hb⟩
  · exact ha
  · exact hg.target_mem hb

theorem mem_forwardClosure_iff (hg : g.Coherent) :
    n ∈ g.forwardClosure names ↔ n ∈ g.names ∧
      ∃ m ∈ names, m ∈ g.names ∧ ReflTransGen (fun a b => b ∈ g.dependencies a) m n := by
  rw [mem_forwardClosure hg]
  refine ⟨?_, fun h => h.2⟩
  rintro ⟨m, hm, hnode, hchain⟩
  exact ⟨hg.mem_target hnode hchain, m, hm, hnode, hchain⟩

theorem mem_reverseClosure_iff (hg : g.Coherent) :
    n ∈ g.reverseClosure names ↔ n ∈ g.names ∧
      ∃ m ∈ names, m ∈ g.names ∧ ReflTransGen (fun a b => b ∈ g.dependents a) m n := by
  have hswap : ∀ m, ReflTransGen (fun a b => b ∈ g.dependents a) m n ↔ ReflTransGen g.Reads n m := by
    intro m
    simp only [hg.mem_dependents, ← Relation.reflTransGen_swap (r := g.Reads), Function.swap_def]
  simp only [mem_reverseClosure hg, hswap]
  refine ⟨?_, fun h => h.2⟩
  rintro ⟨m, hm, hnode, hchain⟩
  exact ⟨hg.mem_source hnode hchain, m, hm, hnode, hchain⟩

theorem mem_forwardClosure_single (hg : g.Coherent) :
    b ∈ g.forwardClosure (NameSet.ofNames [a]) ↔ a ∈ g.reverseClosure (NameSet.ofNames [b]) := by
  simp only [mem_forwardClosure hg, mem_reverseClosure hg, NameSet.mem_ofNames, List.mem_singleton, exists_eq_left]
  constructor
  · rintro ⟨ha, hchain⟩
    exact ⟨hg.mem_target ha hchain, hchain⟩
  · rintro ⟨hb, hchain⟩
    exact ⟨hg.mem_source hb hchain, hchain⟩

end Coherent

/-- The expression of `a` mentions `b`, another declared variable. -/
def Mentions (definitions : VariableSet) (namespaces : NameSet) (a b : String) : Prop := ∃ v text,
  definitions.get? a = some v ∧ v.expression? = some text ∧ b ∈ definitions.names ∧ b ≠ a ∧
    b ∈ (References.scan text definitions.domain namespaces).reads

theorem reads_build_iff_mentions {definitions : VariableSet} {namespaces : NameSet} {a b : String} :
    (build definitions namespaces).Reads a b ↔ Mentions definitions namespaces a b := by
  constructor
  · intro h
    have hdeclared : b ∈ definitions.names := names_build definitions namespaces ▸ coherent_build.target_mem h
    obtain ⟨v, text, hv, ht, hb, hne⟩ := reads_build.1 h
    exact ⟨v, text, hv, ht, hdeclared, hne, hb⟩
  · rintro ⟨v, text, hv, ht, _, hne, hb⟩
    exact reads_build.2 ⟨v, text, hv, ht, hb, hne⟩

/-- What a graph tells of some variables. -/
structure Depicts (g : Graph) (definitions : VariableSet) (namespaces : NameSet) : Prop where
  names_eq : g.names = definitions.names
  nodup : g.names.Nodup
  mem_dependencies : ∀ a b, b ∈ g.dependencies a ↔ Mentions definitions namespaces a b
  mem_dependents : ∀ a b, a ∈ g.dependents b ↔ Mentions definitions namespaces a b
  edgeCount_eq : {e : String × String | Mentions definitions namespaces e.1 e.2}.encard = g.edgeCount
  /-- Forwards, the declared variables at the ends of chains of dependencies are found. -/
  mem_forwardClosure : ∀ (names : NameSet) (n : String), n ∈ g.forwardClosure names ↔ n ∈ definitions.names ∧
    ∃ m ∈ names, m ∈ definitions.names ∧ ReflTransGen (fun a b => b ∈ g.dependencies a) m n
  /-- Backwards, those at the ends of chains of dependents. -/
  mem_reverseClosure : ∀ (names : NameSet) (n : String), n ∈ g.reverseClosure names ↔ n ∈ definitions.names ∧
    ∃ m ∈ names, m ∈ definitions.names ∧ ReflTransGen (fun a b => b ∈ g.dependents a) m n
  forward_iff_reverse : ∀ x y, y ∈ g.forwardClosure (NameSet.ofNames [x]) ↔ x ∈ g.reverseClosure (NameSet.ofNames [y])

/-- The graph of some variables has them in the order of their declaration, the edges that the scans of their texts
say, and exact closures. -/
theorem build_depicts (definitions : VariableSet) (namespaces : NameSet) :
    (build definitions namespaces).Depicts definitions namespaces := by
  have hg : (build definitions namespaces).Coherent := coherent_build
  constructor
  case names_eq => exact names_build definitions namespaces
  case nodup => exact hg.nodup
  case mem_dependencies => exact fun _ _ => reads_build_iff_mentions
  case mem_dependents => exact fun _ _ => hg.mem_dependents.trans reads_build_iff_mentions
  case edgeCount_eq =>
    simp only [← reads_build_iff_mentions]
    exact encard_reads _
  case mem_forwardClosure =>
    intro names n
    rw [hg.mem_forwardClosure_iff, names_build]
  case mem_reverseClosure =>
    intro names n
    rw [hg.mem_reverseClosure_iff, names_build]
  case forward_iff_reverse => exact fun _ _ => hg.mem_forwardClosure_single

end LiveSheet.Graph
