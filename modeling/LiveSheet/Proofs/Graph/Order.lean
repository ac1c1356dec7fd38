import LiveSheet.Proofs.Graph.Walk

/-! Schedules are right, cycles included. The order lists the working set and nothing else; every
edge of it is respected or broken, an edge is only broken on a cycle, and some edge is broken
whenever there is one. -/

namespace LiveSheet
open Relation (ReflTransGen TransGen)

/-- The variables that are scheduled: all of them, or those asked for and what they read. -/
def Graph.Working (g : Graph) (only : Option NameSet) (n : String) : Prop :=
  match only with
  | none => n ∈ g.names
  | some names => ∃ m ∈ names, m ∈ g.names ∧ ReflTransGen g.Reads m n

theorem Graph.Working.of_reads {g : Graph} (hg : g.Coherent) {only : Option NameSet} {a b : String}
    (ha : g.Working only a) (h : g.Reads a b) : g.Working only b := by
  cases only with
  | none => exact hg.target_mem h
  | some names =>
    obtain ⟨m, hm, hnode, hc⟩ := ha
    exact ⟨m, hm, hnode, hc.tail h⟩

theorem Graph.Working.mem_names {g : Graph} (hg : g.Coherent) {only : Option NameSet} {a : String}
    (ha : g.Working only a) : a ∈ g.names := by
  cases only with
  | none => exact ha
  | some names =>
    obtain ⟨m, _, hnode, hc⟩ := ha
    rcases hc.cases_tail with rfl | ⟨b, _, hb⟩
    · exact hnode
    · exact hg.target_mem hb

/-- No variable reads itself, directly or not. -/
def Graph.Acyclic (g : Graph) : Prop := ∀ n, ¬TransGen g.Reads n n

theorem Graph.Acyclic.of_build {definitions : VariableSet} {namespaces namespaces' : NameSet}
    (h : (build definitions namespaces).Acyclic) : (build definitions namespaces').Acyclic :=
  fun n hc => h n (TransGen.lift id (fun _ _ hread => (reads_build_iff _).1 hread) n n hc)

namespace Schedule

/-- A right schedule of the part of a graph that is `working`. -/
structure Orders (g : Graph) (working : String → Prop) (s : Schedule) : Prop where
  nodup : s.order.Nodup
  mem_order : ∀ n, n ∈ s.order ↔ working n
  /-- Of each edge, either the target comes first or the edge is broken, and not both. -/
  settled : ∀ v d, working v → g.Reads v d →
    Xor (Precedes s.order d v) (⟨v, d⟩ ∈ s.brokenEdges)
  nodup_brokenEdges : s.brokenEdges.Nodup
  /-- A broken edge is one of the working part and closes a cycle. -/
  cycle : ∀ e ∈ s.brokenEdges,
    working e.source ∧ g.Reads e.source e.target ∧ TransGen g.Reads e.target e.source
  brokenEdges_eq_nil_iff : s.brokenEdges = [] ↔
    ∀ n, ¬TransGen (fun a b => working a ∧ working b ∧ g.Reads a b) n n

theorem not_cycle_of_precedes {order : List String} {r : String → String → Prop}
    (hn : order.Nodup) (hr : ∀ a b, r a b → Precedes order b a) (n : String) : ¬TransGen r n n := by
  have hlt : ∀ {a b}, TransGen r a b → order.idxOf b < order.idxOf a := by
    intro a b h
    induction h with
    | single h => exact idxOf_lt_of_precedes hn (hr _ _ h)
    | tail _ h ih => exact Nat.lt_trans (idxOf_lt_of_precedes hn (hr _ _ h)) ih
  intro h
  exact Nat.lt_irrefl _ (hlt h)

theorem chain_within {g : Graph} {working : String → Prop} {next : String → List String}
    (hnext : ∀ a b, working a → b ∈ next a → g.Reads a b)
    (hreads : ∀ a b, working a → g.Reads a b → working b) {a b : String} (ha : working a)
    (h : TransGen (fun a b => b ∈ next a) a b) :
    working b ∧ TransGen (fun a b => working a ∧ working b ∧ g.Reads a b) a b := by
  induction h with
  | single h =>
    have hb := hnext a _ ha h
    exact ⟨hreads a _ ha hb, .single ⟨ha, hreads a _ ha hb, hb⟩⟩
  | tail _ h ih =>
    have hb := hnext _ _ ih.1 h
    exact ⟨hreads _ _ ih.1 hb, ih.2.tail ⟨ih.1, hreads _ _ ih.1 hb, hb⟩⟩

theorem orders_of_walk {g : Graph} {working : String → Prop} {nodes : List String}
    {next : String → List String} {s : Schedule} {new : List String} {cuts : List BrokenEdge}
    (hw : Walk nodes next [] empty s new cuts) (hall : ∀ r ∈ nodes, r ∈ new)
    (hsource : ∀ e ∈ cuts, e.source ∈ new) (hnodes : ∀ n, n ∈ nodes ↔ working n)
    (hnext : ∀ a b, working a → (b ∈ next a ↔ g.Reads a b))
    (hreads : ∀ a b, working a → g.Reads a b → working b) : s.Orders g working := by
  have horder : s.order = new := by simpa [empty] using hw.order
  have hbroken : s.brokenEdges = cuts := by simpa [empty] using hw.brokenEdges
  have hmem : ∀ n, n ∈ new ↔ working n :=
    fun n => ⟨fun h => (hnodes n).1 (hw.within n h), fun h => hall n ((hnodes n).2 h)⟩
  have hsettled : ∀ v d, working v → g.Reads v d →
      (Precedes s.order d v ↔ ⟨v, d⟩ ∉ s.brokenEdges) := by
    intro v d hv hd
    rw [hbroken]
    exact hw.settled v ((hmem v).2 hv) d ((hnext v d hv).2 hd)
  have hcycle : ∀ e ∈ cuts, working e.source ∧ g.Reads e.source e.target ∧
      TransGen (fun a b => working a ∧ working b ∧ g.Reads a b) e.target e.source := by
    intro e he
    have hv := (hmem _).1 (hsource e he)
    obtain ⟨hd, hc⟩ := hw.cycle e he
    have hd := (hnext _ _ hv).1 hd
    exact ⟨hv, hd, (chain_within (fun a b ha h => (hnext a b ha).1 h) hreads (hreads _ _ hv hd) hc).2⟩
  refine ⟨horder ▸ hw.nodup, fun n => horder ▸ hmem n, ?_, hbroken ▸ hw.nodup_cuts, ?_, ?_⟩
  · intro v d hv hd
    rw [xor_iff_iff_not]
    exact hsettled v d hv hd
  · intro e he
    obtain ⟨hv, hd, hc⟩ := hcycle e (hbroken ▸ he)
    exact ⟨hv, hd, TransGen.mono (fun _ _ h => h.2.2) _ _ hc⟩
  · constructor
    · intro hnil
      refine not_cycle_of_precedes (horder ▸ hw.nodup) fun a b h => ?_
      rw [hsettled a b h.1 h.2.2, hnil]
      exact List.not_mem_nil
    · intro hacyclic
      rw [hbroken, List.eq_nil_iff_forall_not_mem]
      intro e he
      obtain ⟨hv, hd, hc⟩ := hcycle e he
      exact hacyclic e.source (hc.head ⟨hv, hreads _ _ hv hd, hd⟩)

theorem orders_ofGraph {g : Graph} (hg : g.Coherent) (only : Option NameSet) : (ofGraph g only).Orders g (g.Working only) := by
  unfold ofGraph
  extract_lets isWorking
  have hworking : ∀ n, n ∈ g.names.filter isWorking ↔ g.Working only n := by
    intro n
    rw [List.mem_filter]
    cases only with
    | none => simp [isWorking, Graph.Working]
    | some names =>
      have hiff : isWorking n = true ↔ g.Working (some names) n := by
        rw [← Std.ExtTreeSet.mem_iff_contains]
        exact Graph.mem_forwardClosure hg
      rw [hiff]
      exact ⟨fun h => h.2, fun h => ⟨h.mem_names hg, h⟩⟩
  have hnext : ∀ a b, g.Working only a → (b ∈ (g.dependencies a).filter isWorking ↔ g.Reads a b) := by
    intro a b ha
    rw [List.mem_filter]
    refine ⟨fun h => h.1, fun h => ⟨h, ?_⟩⟩
    exact (List.mem_filter.1 ((hworking b).2 (ha.of_reads hg h))).2
  have hclosed : ∀ a ∈ g.names.filter isWorking, ∀ b ∈ (g.dependencies a).filter isWorking,
      b ∈ g.names.filter isWorking := by
    intro a ha b hb
    have ha := (hworking a).1 ha
    exact (hworking b).2 (ha.of_reads hg ((hnext a b ha).1 hb))
  have hdepth : (g.names.filter isWorking).length ≤ g.names.length :=
    List.length_filter_le isWorking g.names
  obtain ⟨new, cuts, hw, hall, hsource⟩ := Traversal.visitRoots_walk hclosed
    (fun a => (g.nodup_dependencies a).filter isWorking) hdepth _ (fun _ hr => hr) .start
  exact orders_of_walk hw (by simpa [Traversal.start, empty] using hall) hsource hworking hnext
    (fun a b ha h => ha.of_reads hg h)

theorem Orders.precedes {g : Graph} {working : String → Prop} {s : Schedule} (h : s.Orders g working)
    (hacyclic : g.Acyclic) {v d : String} (hv : working v) (hread : g.Reads v d) :
    Precedes s.order d v := by
  have hnil : s.brokenEdges = [] := by
    refine h.brokenEdges_eq_nil_iff.2 fun n hc => hacyclic n ?_
    exact TransGen.lift id (fun _ _ hab => hab.2.2) _ _ hc
  rcases h.settled v d hv hread with ⟨hp, _⟩ | ⟨hb, _⟩
  · exact hp
  · simp [hnil] at hb

/-- The schedule of variables lists those that are asked for, and what they read, once each and in
an order that respects all edges but the broken ones, which are those of cycles. -/
theorem ofGraph_build_orders (definitions : VariableSet) (namespaces : NameSet)
    (only : Option NameSet) :
    (ofGraph (Graph.build definitions namespaces) only).Orders (Graph.build definitions namespaces)
      ((Graph.build definitions namespaces).Working only) :=
  orders_ofGraph Graph.coherent_build only

end Schedule

theorem Graph.acyclic_of_schedule {definitions : VariableSet} {namespaces : NameSet}
    (h : (Schedule.ofGraph (build definitions namespaces) none).brokenEdges = []) :
    (build definitions namespaces).Acyclic := by
  have horders := Schedule.orders_ofGraph (g := build definitions namespaces) coherent_build none
  intro n hc
  refine horders.brokenEdges_eq_nil_iff.1 h n ?_
  exact TransGen.mono (fun a b hread => ⟨coherent_build.source_mem hread, coherent_build.target_mem hread, hread⟩) _ _ hc

/-- In a graph without cycles what passes from the dependencies of a variable to itself holds of
all of them. The induction is on the place in the order. -/
theorem Graph.Acyclic.induct {definitions : VariableSet} {namespaces : NameSet} {p : String → Prop}
    (hacyclic : (build definitions namespaces).Acyclic)
    (step : ∀ a, (∀ b, (build definitions namespaces).Reads a b → p b) → p a) (a : String) : p a := by
  have horders := Schedule.orders_ofGraph (g := build definitions namespaces) coherent_build none
  generalize hs : Schedule.ofGraph (build definitions namespaces) none = s at horders
  generalize hk : s.order.idxOf a = k
  induction k using Nat.strongRecOn generalizing a with
  | ind k ih =>
    refine step a fun b hread => ih (s.order.idxOf b) ?_ b rfl
    rw [← hk]
    exact Schedule.idxOf_lt_of_precedes horders.nodup
      (horders.precedes hacyclic (coherent_build.source_mem hread) hread)

end LiveSheet
