import LiveSheet.Proofs.Propagation.Extent
import LiveSheet.Proofs.Resolution.Equation

/-! Evaluating again what a script affects gives the values of a full pass. What is not evaluated
again reads nothing that was written to, so its equation still holds after the script; the rest
gets its equation solved by the second pass. A variable that was written to is a literal from then
on and reads nothing, so its old edges are gone. -/

namespace LiveSheet
open Relation (ReflTransGen TransGen)

namespace CommandRun.Overwritten

variable {σ : Type} {definitions definitions' : VariableSet} {values values' : NameMap Value}
  {modified : NameSet}

theorem domain_eq (h : Overwritten definitions values definitions' values' modified) :
    definitions'.domain = definitions.domain := by
  rw [VariableSet.domain_eq, h.names_eq, VariableSet.domain_eq]

theorem reads_iff (h : Overwritten definitions values definitions' values' modified)
    {namespaces : NameSet} {a b : String} : (Graph.build definitions' namespaces).Reads a b ↔
      a ∉ modified ∧ (Graph.build definitions namespaces).Reads a b := by
  by_cases ha : a ∈ modified
  · refine iff_of_false (fun hread => ?_) fun hread => hread.1 ha
    obtain ⟨d, v, hd, hv, _⟩ := h.written a ha
    obtain ⟨e, text, he, ht, _⟩ := Graph.reads_build.1 hread
    obtain rfl : d = e := Option.some.inj (hd.symm.trans he)
    simp [Variable.expression?, hv] at ht
  · rw [Graph.reads_build, Graph.reads_build, h.get?_eq a ha, h.domain_eq]
    exact (and_iff_right ha).symm

theorem acyclic (h : Overwritten definitions values definitions' values' modified)
    (hacyclic : (Graph.build definitions ∅).Acyclic) : (Graph.build definitions' ∅).Acyclic :=
  fun n hc => hacyclic n (TransGen.lift id (fun _ _ hread => (h.reads_iff.1 hread).2) n n hc)

theorem isLocal (h : Overwritten definitions values definitions' values' modified) {world : World σ}
    (hlocal : Resolution.Local world definitions) : Resolution.Local world definitions' := by
  intro n v text hv ht A B hreads hfree
  have hn : n ∉ modified := by
    intro hn
    obtain ⟨d, value, hd, hvalue, _⟩ := h.written n hn
    obtain rfl : d = v := Option.some.inj (hd.symm.trans hv)
    simp [Variable.expression?, hvalue] at ht
  rw [h.get?_eq n hn] at hv
  rw [h.names_eq] at hfree
  rw [h.domain_eq]
  exact hlocal n v text hv ht A B (fun d hd => hreads d (h.reads_iff.2 ⟨hn, hd⟩)) hfree

theorem mem_names_of_mem (h : Overwritten definitions values definitions' values' modified)
    {n : String} (hn : n ∈ modified) : n ∈ definitions'.names := by
  obtain ⟨d, _, hd, _⟩ := h.written n hn
  exact VariableSet.mem_names_iff.2 ⟨d, hd⟩

theorem solved (h : Overwritten definitions values definitions' values' modified) {world : World σ}
    (hlocal : Resolution.Local world definitions) {n : String}
    (hsolved : Resolution.Solved world definitions values n) (hn : n ∉ modified)
    (hreads : ∀ d, (Graph.build definitions' ∅).Reads n d → d ∉ modified) :
    Resolution.Solved world definitions' values' n := by
  have hfree : ∀ m, m ∉ definitions.names → values[m]? = values'[m]? := by
    intro m hm
    refine (h.value_eq m fun hmod => hm ?_).symm
    rw [← h.names_eq]
    exact h.mem_names_of_mem hmod
  have hkept : Resolution.Solved world definitions values' n := by
    refine hsolved.congr hlocal (h.value_eq n hn).symm (fun d hd => ?_) hfree
    exact (h.value_eq d (hreads d (h.reads_iff.2 ⟨hn, hd⟩))).symm
  intro v hv
  rw [h.get?_eq n hn] at hv
  rw [h.domain_eq]
  exact hkept v hv

end CommandRun.Overwritten

namespace Propagation

variable {σ : Type} {definitions : VariableSet}

theorem mem_recompute_iff {namespaces modified : NameSet} {n : String} :
    n ∈ (plan (Graph.build definitions namespaces) ∅ modified).recompute ↔
      ∃ m ∈ modified, m ∈ definitions.names ∧
        ReflTransGen (Graph.build definitions namespaces).Reads n m := by
  have hnone : ∀ m, ¬Refers definitions namespaces ∅ m := by
    rintro m ⟨v, text, _, _, owner, _, howner⟩
    exact Std.ExtTreeSet.not_mem_empty howner
  simp only [mem_recompute, mem_affected, hnone, or_false]
  constructor
  · rintro ⟨m, ⟨hnode, hm⟩, hc⟩
    exact ⟨m, hm, hnode, hc⟩
  · rintro ⟨m, hm, hnode, hc⟩
    exact ⟨m, ⟨hnode, hm⟩, hc⟩

theorem solved_or_kept {world₀ world : World σ} (hlocal : Resolution.Local world₀ definitions)
    (hworld₀ : Resolution.NoIntegrations world₀) (hworld : Resolution.NoIntegrations world)
    (hacyclic : (Graph.build definitions ∅).Acyclic) (scope : ScopeId) (values : NameMap Value)
    (modified : NameSet) (n : String) :
    let result := (propagate world scope definitions values ∅ modified).2.1.values
    (n ∈ definitions.names ∧ Resolution.Solved world₀ definitions result n) ∨
      n ∉ (plan (Resolution.graph world definitions) ∅ modified).recompute ∧ result[n]? = values[n]? := by
  intro result
  have hextent := extent world scope definitions values ∅ modified
  by_cases hn : n ∈ (propagate world scope definitions values ∅ modified).2.1.order
  · refine Or.inl ⟨order_propagate_subset world scope definitions values ∅ modified n hn, ?_⟩
    simp only [result, propagate_eq_ofGraph] at hn ⊢
    exact Resolution.solved_ofGraph hlocal hworld₀ hworld scope hacyclic _ hn
  · refine Or.inr ⟨fun hmem => hn ((hextent.mem_order n).2 ⟨n, ?_, .refl⟩), hextent.kept n hn⟩
    rwa [propagate_eq_ofGraph]

/-- After any script, completed or not, evaluating again what it affects gives the values of a full
pass over the variables as the script left them. -/
theorem propagate_eq_resolve {world₀ world₁ world₂ world₃ : World σ}
    (h₀ : Resolution.NoIntegrations world₀) (h₂ : Resolution.NoIntegrations world₂)
    (h₃ : Resolution.NoIntegrations world₃) (hacyclic : (Graph.build definitions ∅).Acyclic)
    (hlocal : Resolution.Local world₀ definitions) (scope : ScopeId) (seed : NameMap Value)
    (script : String) :
    let full := (Resolution.resolve world₀ scope definitions seed none).1
    let c := (CommandRun.run world₁ scope definitions full.values script).1
    (propagate world₂ scope c.definitions c.values ∅ c.modified).2.1.values =
      (Resolution.resolve world₃ scope c.definitions seed none).1.values := by
  intro full c
  have hc : CommandRun.Overwritten definitions full.values c.definitions c.values c.modified :=
    CommandRun.overwritten definitions full.values world₁ scope script
  have hlocal' := hc.isLocal hlocal
  have hacyclic' := hc.acyclic hacyclic
  obtain ⟨hfull, hfullFree⟩ := Resolution.solved_resolve hlocal h₀ h₀ scope hacyclic seed
  obtain ⟨hagain, hagainFree⟩ := Resolution.solved_resolve hlocal' h₀ h₃ scope hacyclic' seed
  have hunwritten : ∀ n, n ∉ (plan (Resolution.graph world₂ c.definitions) ∅ c.modified).recompute →
      n ∉ c.modified := by
    intro n hn hmod
    exact hn (mem_recompute_iff.2 ⟨n, hmod, hc.mem_names_of_mem hmod, .refl⟩)
  have hfree : ∀ n, n ∉ c.definitions.names → c.values[n]? =
      (Resolution.resolve world₃ scope c.definitions seed none).1.values[n]? := by
    intro n hn
    rw [hagainFree n hn, hc.value_eq n (mt hc.mem_names_of_mem hn)]
    exact hfullFree n (hc.names_eq ▸ hn)
  -- What has no dependency written to is solved before the second pass already.
  have hkept : ∀ n, n ∉ (plan (Resolution.graph world₂ c.definitions) ∅ c.modified).recompute →
      c.values[n]? = (Resolution.resolve world₃ scope c.definitions seed none).1.values[n]? := by
    have hclosed : ∀ a b, a ∉ (plan (Resolution.graph world₂ c.definitions) ∅ c.modified).recompute →
        (Graph.build c.definitions ∅).Reads a b →
        b ∉ (plan (Resolution.graph world₂ c.definitions) ∅ c.modified).recompute := by
      intro a b ha hread hb
      obtain ⟨m, hm, hnode, hchain⟩ := mem_recompute_iff.1 hb
      exact ha (mem_recompute_iff.2 ⟨m, hm, hnode, .head ((Graph.reads_build_iff _).1 hread) hchain⟩)
    intro n
    refine Resolution.eq_of_solved hlocal' hacyclic' hclosed hfree (fun n hn => Or.inl ⟨?_, hagain n⟩) n
    exact hc.solved hlocal (hfull n) (hunwritten n hn) fun d hd => hunwritten d (hclosed n d hn hd)
  apply Std.ExtTreeMap.ext_getElem?
  intro n
  have hcases := solved_or_kept hlocal' h₀ h₂ hacyclic' scope c.values c.modified
  refine Resolution.eq_of_solved hlocal' hacyclic' (P := fun _ => True) (fun _ _ _ _ => trivial)
    (fun m hm => ?_) (fun m _ => ?_) n trivial
  · rcases hcases m with ⟨hdeclared, _⟩ | ⟨hm', heq⟩
    · exact absurd hdeclared hm
    · rw [heq, hkept m hm']
  · rcases hcases m with ⟨_, hsolved⟩ | ⟨hm', heq⟩
    · exact Or.inl ⟨hsolved, hagain m⟩
    · exact Or.inr (heq.trans (hkept m hm'))

def doubled : VariableSet where
  declared := [⟨"a", .literal (.number 1), none, none⟩, ⟨"b", .expression "a + a", none, none⟩]
  nodup := by decide

theorem acyclic_doubled : (Graph.build doubled ∅).Acyclic := Graph.acyclic_of_schedule (by cbv)

theorem local_doubled : Resolution.Local (World.start () .none) doubled := by
  have hread : (Graph.build doubled ∅).Reads "b" "a" := by
    unfold Graph.Reads
    decide +kernel
  refine Resolution.local_of_parse rfl fun v hv text htext => ?_
  rcases List.mem_pair.1 hv with rfl | rfl
  · cases htext
  · cases htext
    refine ⟨[.expr (.binary .add (.identifier "a") (.identifier "a"))], fun lookup => by cbv, by cbv, ?_, ?_⟩
    · simp [Program.LiteralKeys, Statement.value, Expr.Everywhere, Expr.LiteralKey]
    · intro m hm
      rcases List.mem_pair.1 hm with rfl | rfl <;> exact .inl hread

theorem propagate_eq_resolve_doubled :
    let world := World.start () .none
    Resolution.NoIntegrations world ∧ (Graph.build doubled ∅).Acyclic ∧ Resolution.Local world doubled ∧
    let full := (Resolution.resolve world .global doubled ∅ none).1
    let c := (CommandRun.run world .global doubled full.values "setValue('a', 2)").1
    (propagate world .global c.definitions c.values ∅ c.modified).2.1.values =
      (Resolution.resolve world .global c.definitions ∅ none).1.values := by
  have hworld : Resolution.NoIntegrations (World.start () .none) := rfl
  exact ⟨hworld, acyclic_doubled, local_doubled, propagate_eq_resolve hworld hworld hworld
    acyclic_doubled local_doubled .global ∅ "setValue('a', 2)"⟩

end Propagation

end LiveSheet
