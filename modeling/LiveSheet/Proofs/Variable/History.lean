import Mathlib.Data.List.Induction
import LiveSheet.Proofs.Variable.Lookup

/-! A set of variables over its whole life. Variables are declared or refused, made literals, and collected into new
sets. Whatever is done, the index leads to the one place of each name, the names stand in the order in which they were
declared first, and a lookup finds the variable that was declared last, with the values it was frozen to since. -/

namespace LiveSheet

namespace VariableSet

/-- What is done to a set: a variable is declared, the variable of a name is made a literal, or a list is collected
into a new set. -/
inductive Edit where
  | insert (v : Variable)
  | freeze (name : String) (value : Value)
  | collect (vs : List Variable)

namespace Edit

def apply (set : VariableSet) : Edit → VariableSet
  | insert v => (set.insertInPlace v).2
  | freeze name value => set.freeze name value
  | collect vs => ofList vs

def accepted? : Edit → Option Variable
  | insert v => if v.fault?.isNone then some v else none
  | _ => none

def frozen? (name : String) : Edit → Option Value
  | freeze n value => if n = name then some value else none
  | _ => none

end Edit

def after (edits : List Edit) : VariableSet := edits.foldl Edit.apply empty

/-- The edits since the last collection, and before them the collected variables, inserted one by one. -/
def recent (edits : List Edit) : List Edit :=
  edits.foldl (fun past edit => match edit with
    | .collect vs => vs.map .insert
    | edit => past ++ [edit]) []

/-- The variable of a name that was declared last, frozen to all values it was frozen to since. -/
def Stands (past : List Edit) (name : String) (w : Variable) : Prop :=
  ∃ earlier v later, past = earlier ++ .insert v :: later ∧ v.fault? = none ∧ v.name = name ∧
    (∀ u ∈ later.filterMap Edit.accepted?, u.name ≠ name) ∧
    w = (later.filterMap (Edit.frozen? name)).foldl Variable.freeze v

/-- The names and the variables are those of a past. -/
structure Recorded (past : List Edit) (set : VariableSet) : Prop where
  names_eq : set.names = ((past.filterMap Edit.accepted?).map Variable.name).eraseDups
  get?_iff : ∀ n w, set.get? n = some w ↔ Stands past n w

variable {past : List Edit} {set : VariableSet}

theorem stands_nil {n : String} {w : Variable} : ¬Stands [] n w := by
  rintro ⟨earlier, v, later, heq, -⟩
  simp at heq

/-- Only the last edit can have come after all the others: it declares the variable, or leaves the one that stood and
may freeze it. -/
theorem stands_concat {edit : Edit} {n : String} {w : Variable} : Stands (past ++ [edit]) n w ↔
    (edit = .insert w ∧ w.fault? = none ∧ w.name = n) ∨
    ∃ u, Stands past n u ∧ (∀ v, edit.accepted? = some v → v.name ≠ n) ∧ w = ((edit.frozen? n).map u.freeze).getD u := by
  constructor
  · rintro ⟨earlier, v, later, heq, hfault, hname, hlater, rfl⟩
    -- the last edit declares the variable itself, or is the last of those behind its declaration
    rcases later.eq_nil_or_concat with rfl | ⟨later, last, rfl⟩
    · obtain ⟨-, hlast⟩ := List.append_inj' heq rfl
      exact .inl ⟨List.singleton_inj.1 hlast, hfault, hname⟩
    · rw [List.concat_eq_append, ← List.cons_append, ← List.append_assoc] at heq
      obtain ⟨rfl, hlast⟩ := List.append_inj' heq rfl
      obtain rfl := List.singleton_inj.1 hlast
      rw [List.concat_eq_append, List.filterMap_append, List.forall_mem_append] at hlater
      refine .inr ⟨_, ⟨earlier, v, later, rfl, hfault, hname, hlater.1, rfl⟩, fun u hu => ?_, ?_⟩
      · exact hlater.2 u (by simp [hu])
      · rw [List.concat_eq_append, List.filterMap_append, List.foldl_append]
        cases hfrozen : edit.frozen? n <;> simp [hfrozen]
  · rintro (⟨rfl, hfault, hname⟩ | ⟨_, ⟨earlier, v, later, rfl, hfault, hname, hlater, rfl⟩, hedit, rfl⟩)
    · exact ⟨past, w, [], rfl, hfault, hname, by simp, rfl⟩
    · refine ⟨earlier, v, later ++ [edit], by simp, hfault, hname, ?_, ?_⟩
      · rw [List.filterMap_append, List.forall_mem_append]
        refine ⟨hlater, fun u hu => hedit u ?_⟩
        simpa [List.mem_filterMap] using hu
      · rw [List.filterMap_append, List.foldl_append]
        cases hfrozen : edit.frozen? n <;> simp [hfrozen]

theorem recorded_empty : Recorded [] empty where
  names_eq := rfl
  get?_iff _ _ := iff_of_false nofun stands_nil

theorem accepted_concat (past : List Edit) (edit : Edit) :
    (past ++ [edit]).filterMap Edit.accepted? = past.filterMap Edit.accepted? ++ edit.accepted?.toList := by
  cases h : edit.accepted? <;> simp [h]

theorem Recorded.accept (h : Recorded past set) {v : Variable} (hv : v.fault? = none) :
    Recorded (past ++ [Edit.insert v]) (set.put v) := by
  have haccepted : Edit.accepted? (.insert v) = some v := by simp [Edit.accepted?, hv]
  refine ⟨?_, fun n w => ?_⟩
  · have hmem : v.name ∈ set.names ↔ v.name ∈ (past.filterMap Edit.accepted?).map Variable.name := by
      rw [h.names_eq, List.mem_eraseDups]
    rw [names_put, accepted_concat, haccepted, Option.toList_some, List.map_append, List.map_singleton,
      eraseDups_concat, ← h.names_eq]
    simp only [hmem]
  · have hfrozen : Edit.frozen? n (.insert v) = none := rfl
    rw [get?_put, stands_concat, haccepted, hfrozen]
    by_cases hn : v.name = n
    · simp only [if_pos hn, Option.some_inj, Edit.insert.injEq]
      constructor
      · rintro rfl
        exact .inl ⟨rfl, hv, hn⟩
      · rintro (⟨rfl, -⟩ | ⟨u, -, hne, -⟩)
        · rfl
        · exact absurd hn (hne v rfl)
    · rw [if_neg hn, h.get?_iff]
      constructor
      · exact fun hw => .inr ⟨w, hw, by rintro _ ⟨⟩; exact hn, rfl⟩
      · rintro (⟨⟨⟩, -, hname⟩ | ⟨u, hu, -, rfl⟩)
        · exact absurd hname hn
        · exact hu

theorem Recorded.keep (h : Recorded past set) {edit : Edit} {set' : VariableSet}
    (hinsert : ∀ v, edit = .insert v → v.fault? ≠ none) (hnames : set'.names = set.names)
    (hget : ∀ n, set'.get? n = (set.get? n).map fun u => ((edit.frozen? n).map u.freeze).getD u) :
    Recorded (past ++ [edit]) set' := by
  have haccepted : edit.accepted? = none := by
    cases edit with
    | insert v => simpa [Edit.accepted?] using hinsert v rfl
    | freeze => rfl
    | collect => rfl
  refine ⟨?_, fun n w => ?_⟩
  · rw [hnames, h.names_eq, accepted_concat, haccepted, Option.toList_none, List.append_nil]
  · rw [hget, Option.map_eq_some_iff, stands_concat, haccepted]
    constructor
    · rintro ⟨u, hu, rfl⟩
      exact .inr ⟨u, (h.get?_iff n u).1 hu, nofun, rfl⟩
    · rintro (⟨rfl, hfault, -⟩ | ⟨u, hu, -, rfl⟩)
      · exact absurd hfault (hinsert w rfl)
      · exact ⟨u, (h.get?_iff n u).2 hu, rfl⟩

theorem apply_accepted {v : Variable} (hv : v.fault? = none) : Edit.apply set (.insert v) = set.put v := by
  rw [Edit.apply, insertInPlace_of_sound set hv]

theorem apply_refused {v : Variable} (hv : v.fault? ≠ none) : Edit.apply set (.insert v) = set := by
  obtain ⟨fault, hfault⟩ := Option.ne_none_iff_exists'.1 hv
  rw [Edit.apply, insertInPlace_of_fault set hfault]

theorem Recorded.insert (h : Recorded past set) (v : Variable) :
    Recorded (past ++ [Edit.insert v]) (Edit.apply set (.insert v)) := by
  by_cases hv : v.fault? = none
  · rw [apply_accepted hv]
    exact h.accept hv
  · rw [apply_refused hv]
    refine h.keep (fun u hu => ?_) rfl fun n => ?_
    · cases hu
      exact hv
    · simp [Edit.frozen?]

theorem Recorded.freeze (h : Recorded past set) (name : String) (value : Value) :
    Recorded (past ++ [Edit.freeze name value]) (set.freeze name value) := by
  refine h.keep nofun (names_freeze set name value) fun n => ?_
  rw [get?_freeze]
  by_cases hn : n = name
  · simp [Edit.frozen?, hn]
  · simp [Edit.frozen?, hn, Ne.symm hn]

theorem Recorded.insertEach (h : Recorded past set) (vs : List Variable) :
    Recorded (past ++ vs.map Edit.insert) (vs.foldl (fun set v => Edit.apply set (.insert v)) set) := by
  induction vs generalizing past set with
  | nil => simpa using h
  | cons v vs ih => simpa using ih (h.insert v)

theorem recorded_ofList (vs : List Variable) : Recorded (vs.map Edit.insert) (ofList vs) :=
  recorded_empty.insertEach vs

theorem recorded_after (edits : List Edit) : Recorded (recent edits) (after edits) := by
  -- from the end, since the last edit is the one that is applied last
  induction edits using List.reverseRecOn with
  | nil => exact recorded_empty
  | append_singleton edits edit ih =>
    rw [recent, after, List.foldl_append, List.foldl_append]
    cases edit with
    | insert v => exact ih.insert v
    | freeze name value => exact ih.freeze name value
    | collect vs => exact recorded_ofList vs

/-- A set that holds together: the index leads to the one place of each name, and the names and the variables are
those of the past. A freeze replaces one rule, and a variable that is refused leaves everything as it is. -/
structure Intact (past : List Edit) (set : VariableSet) : Prop extends Recorded past set where
  index_iff : ∀ (n : String) (i : Nat), set.index[n]? = some i ↔ ∃ v, set.declared[i]? = some v ∧ v.name = n
  nodup_names : set.names.Nodup
  index_freeze : ∀ name value, (set.freeze name value).index = set.index
  getElem?_freeze : ∀ name value (i : Nat), (set.freeze name value).declared[i]? =
    set.declared[i]?.map fun v => if v.name = name then { v with rule := .literal value } else v
  refused : ∀ v fault, (set.insertInPlace v).1 = .error fault → (set.insertInPlace v).2 = set

/-- Whatever is done to a set, it holds together. -/
theorem intact_after (edits : List Edit) : Intact (recent edits) (after edits) := by
  refine ⟨recorded_after edits, fun n i => ?_, (after edits).nodup, fun name value => ?_, fun name value i => ?_,
    fun v fault h => ?_⟩
  · rw [get?_index, names, List.getElem?_map, Option.map_eq_some_iff]
  · rw [index_eq, index_eq]
    exact congrArg NameMap.positions (names_freeze (after edits) name value)
  · rw [declared_freeze, List.getElem?_map]
    rfl
  · cases hv : v.fault? with
    | some fault => rw [insertInPlace_of_fault _ hv]
    | none =>
      rw [insertInPlace_of_sound _ hv] at h
      cases h

example : (after [.insert ⟨"a", .literal .null, none, none⟩, .insert ⟨"b", .literal .null, none, none⟩,
    .insert ⟨"a", .expression "5", none, none⟩]).names = ["a", "b"] := by
  decide +kernel

end VariableSet

end LiveSheet
