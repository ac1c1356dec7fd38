import Mathlib
import LiveSheet.Engine
import LiveSheet.Proofs.Command.Agreement
import LiveSheet.Proofs.Resolution.Pass

/-! Stored values in the place of declared rules. They are literals within the bounds of their variables, and putting
them in place again changes nothing. -/

namespace LiveSheet

namespace Variable

/-- A value that was moved into the bounds is one of them or was not moved at all, so it stays where it is. This does
not take bounds that do not cross. -/
theorem clamp_clamp (d : Variable) (value : Value) : d.clamp (d.clamp value) = d.clamp value := by
  cases value with
  | number n =>
    unfold clamp
    cases d.max <;> cases d.min <;> simp only [Option.map, Option.getD, Number.lesser, Number.greater] <;> grind
  | _ => rfl

/-- The variable with a stored value in the place of its rule. -/
def stored (d : Variable) : Option Value → Variable
  | some v => d.freeze (d.clamp v)
  | none => d

theorem stored_freeze (d : Variable) (value v : Value) : (d.freeze value).stored (some v) = d.stored (some v) := by
  rw [stored, stored, clamp_freeze, freeze, freeze, freeze]

theorem stored_stored (d : Variable) (value : Option Value) : (d.stored value).stored value = d.stored value := by
  cases value with
  | none => rfl
  | some v => exact stored_freeze d _ v

theorem stored_clamp (d : Variable) (value : Value) : d.stored (some (d.clamp value)) = d.freeze (d.clamp value) := by
  rw [stored, clamp_clamp]

end Variable

namespace VariableSet

def written (set : VariableSet) (name : String) (value : Value) : VariableSet :=
  ((set.write? name value).map Prod.snd).getD set

theorem names_written (set : VariableSet) (name : String) (value : Value) :
    (set.written name value).names = set.names := by
  unfold written write?
  cases set.get? name with
  | none => rfl
  | some d => exact names_freeze set name _

theorem get?_written (set : VariableSet) (name : String) (value : Value) (n : String) :
    (set.written name value).get? n =
      if n = name then (set.get? n).map fun d => d.stored (some value) else set.get? n := by
  unfold written write?
  by_cases hname : n = name
  · subst hname
    cases hd : set.get? n with
    | none => simp [hd]
    | some d => simp [get?_freeze, hd, Variable.stored]
  · cases hd : set.get? name with
    | none => simp [hname]
    | some d => simp [get?_freeze, hname]

end VariableSet

namespace Engine

theorem names_overlay (definitions : VariableSet) (values : NameMap Value) :
    (overlay definitions values).names = definitions.names := by
  unfold overlay
  generalize values.toList = entries
  induction entries generalizing definitions with
  | nil => rfl
  | cons entry entries ih => exact (ih _).trans (VariableSet.names_written definitions entry.1 entry.2)

theorem get?_foldl_written {entries : List (String × Value)} (hnodup : (entries.map Prod.fst).Nodup)
    (definitions : VariableSet) (n : String) :
    (entries.foldl (fun set entry => set.written entry.1 entry.2) definitions).get? n =
      (definitions.get? n).map fun d => d.stored (entries.lookup n) := by
  induction entries generalizing definitions with
  | nil => simp [Variable.stored]
  | cons entry entries ih =>
    obtain ⟨hhead, htail⟩ := List.nodup_cons.1 hnodup
    rw [List.foldl_cons, ih htail, VariableSet.get?_written]
    by_cases hn : n = entry.1
    · have hsome : (entry :: entries).lookup n = some entry.2 := by
        rw [List.lookup_cons, hn, beq_self_eq_true]
      rw [if_pos hn, NameMap.lookup_eq_none (hn ▸ hhead), hsome, Option.map_map]
      rfl
    · have hnext : (entry :: entries).lookup n = entries.lookup n := by
        rw [List.lookup_cons, beq_eq_false_iff_ne.2 hn]
      rw [if_neg hn, hnext]

theorem get?_overlay (definitions : VariableSet) (values : NameMap Value) (n : String) :
    (overlay definitions values).get? n = (definitions.get? n).map fun d => d.stored values[n]? := by
  rw [← NameMap.lookup_toList]
  exact get?_foldl_written (NameMap.nodup_toList values) definitions n

theorem overlay_overlay (definitions : VariableSet) (values : NameMap Value) :
    overlay (overlay definitions values) values = overlay definitions values := by
  refine VariableSet.ext_get? (by rw [names_overlay]) fun n => ?_
  rw [get?_overlay, get?_overlay, Option.map_map]
  simp only [Function.comp_def, Variable.stored_stored]

end Engine

end LiveSheet
