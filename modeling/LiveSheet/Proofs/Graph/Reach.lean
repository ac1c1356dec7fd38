import LiveSheet.Proofs.Graph.Filling
import Mathlib.Logic.Relation

/-! What a variable reads through others. The work list of a closure finds exactly the names that chains of edges lead
to, and it ends also where they lead around. -/

namespace LiveSheet
open Relation (ReflTransGen TransGen)

namespace Adjacency

variable {edges : Adjacency} {pending : List String} {seen : NameSet} {n : String}

theorem mem_foldl_discover_pending (names : List String) (found : List String × NameSet) (n : String) :
    n ∈ (names.foldl discover found).1 ↔ n ∈ found.1 ∨ n ∈ names ∧ n ∉ found.2 := by
  induction names generalizing found with
  | nil => simp
  | cons a names ih =>
    rw [List.foldl_cons, ih, discover]
    split <;> grind [Std.compare_eq_iff_eq]

theorem mem_follow_of_seen (h : n ∈ seen) : n ∈ edges.follow pending seen := by
  fun_induction follow edges pending seen with
  | case1 => exact h
  | case2 seen a pending found ih => exact ih ((mem_foldl_discover _ _ n).2 (.inl h))

theorem exists_chain_of_mem_follow (hpending : ∀ m ∈ pending, m ∈ seen) (h : n ∈ edges.follow pending seen) :
    ∃ m ∈ seen, ReflTransGen (fun a b => b ∈ edges.targets a) m n := by
  fun_induction follow edges pending seen with
  | case1 => exact ⟨n, h, .refl⟩
  | case2 seen a pending found ih =>
    obtain ⟨ha, hpending⟩ := List.forall_mem_cons.1 hpending
    have hfound : ∀ m ∈ found.1, m ∈ found.2 := by
      intro m hm
      refine (mem_foldl_discover _ _ m).2 ?_
      exact ((mem_foldl_discover_pending _ _ m).1 hm).imp (hpending m) And.left
    obtain ⟨m, hm, hchain⟩ := ih hfound h
    rcases (mem_foldl_discover _ _ m).1 hm with hm | hm
    · exact ⟨m, hm, hchain⟩
    · exact ⟨a, ha, hchain.head (NameSet.mem_names.1 hm)⟩

/-- What was found is closed under edges, if nothing but the pending names has edges out of what was seen. -/
theorem mem_follow_of_edge (hdone : ∀ a ∈ seen, a ∉ pending → ∀ b ∈ edges.targets a, b ∈ seen) {a b : String}
    (ha : a ∈ edges.follow pending seen) (hb : b ∈ edges.targets a) : b ∈ edges.follow pending seen := by
  fun_induction follow edges pending seen with
  | case1 seen => exact hdone a ha List.not_mem_nil b hb
  | case2 seen c pending found ih =>
    refine ih (fun m hm hout k hk => (mem_foldl_discover _ _ k).2 ?_) ha
    rw [mem_foldl_discover_pending, not_or, not_and, not_not] at hout
    have hseen : m ∈ seen := ((mem_foldl_discover _ _ m).1 hm).elim id hout.2
    by_cases hc : m = c
    · exact .inr (NameSet.mem_names.2 (hc ▸ hk))
    · exact .inl (hdone m hseen (by simp [hc, hout.1]) k hk)

theorem mem_closure {names : NameSet} :
    n ∈ edges.closure names ↔ ∃ m ∈ names, m ∈ edges ∧ ReflTransGen (fun a b => b ∈ edges.targets a) m n := by
  have hseed : ∀ m, m ∈ (names.filter edges.contains : NameSet) ↔ m ∈ names ∧ m ∈ edges := by
    intro m
    simp [Std.ExtTreeSet.mem_filter]
  unfold closure
  extract_lets seen
  have hpending : ∀ m, m ∈ seen.names.reverse ↔ m ∈ seen := fun m => List.mem_reverse.trans NameSet.mem_names
  constructor
  · intro h
    obtain ⟨m, hm, hchain⟩ := exists_chain_of_mem_follow (fun m hm => (hpending m).1 hm) h
    exact ⟨m, ((hseed m).1 hm).1, ((hseed m).1 hm).2, hchain⟩
  · rintro ⟨m, hm, hnode, hchain⟩
    induction hchain with
    | refl => exact mem_follow_of_seen ((hseed m).2 ⟨hm, hnode⟩)
    | tail _ hb ih =>
      exact mem_follow_of_edge (fun a ha hout => absurd ((hpending a).2 ha) hout) ih hb

end Adjacency

namespace Graph

variable {g : Graph} {names : NameSet} {n : String}

theorem mem_forwardClosure (hg : g.Coherent) :
    n ∈ g.forwardClosure names ↔ ∃ m ∈ names, m ∈ g.names ∧ ReflTransGen g.Reads m n := by
  simp only [forwardClosure, Adjacency.mem_closure, hg.mem_forward, ← reads_iff]

theorem mem_reverseClosure (hg : g.Coherent) :
    n ∈ g.reverseClosure names ↔ ∃ m ∈ names, m ∈ g.names ∧ ReflTransGen g.Reads n m := by
  simp only [reverseClosure, Adjacency.mem_closure, hg.mem_reverse, hg.transposed, ← reads_iff,
    ← Relation.reflTransGen_swap (r := g.Reads), Function.swap_def]

end Graph

end LiveSheet
