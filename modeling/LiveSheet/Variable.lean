import LiveSheet.Error
import LiveSheet.Names

/-!
Variables and the ordered sets they are declared in. A variable holds a literal or is
computed by an expression; writing to it makes it a literal. Names are distinct within a
set, and a variable keeps the place of its first declaration.
-/

namespace LiveSheet

inductive Rule where
  | literal (v : Value)
  | expression (text : String)
  deriving Repr

structure Variable where
  name : String
  rule : Rule
  min : Option Float
  max : Option Float
  deriving Repr

namespace Variable

def expression? (v : Variable) : Option String :=
  match v.rule with
  | .literal _ => none
  | .expression text => some text

/-- Moves a number into the bounds; the lower bound is applied last. NaN and everything that
is no number stay as they are. -/
def clamp (v : Variable) : Value → Value
  | .number n =>
    if n.isNaN then .number n
    else
      let n := (v.max.map (Number.lesser n)).getD n
      .number ((v.min.map (Number.greater n)).getD n)
  | other => other

def freeze (v : Variable) (value : Value) : Variable := { v with rule := .literal value }

/-- Names are words, and the bounds do not cross. -/
def fault? (v : Variable) : Option DefinitionFault :=
  if !Text.isVariableName v.name.toList then some .invalidName
  else match v.min, v.max with
    | some min, some max => if max < min then some (.emptyRange min max) else none
    | _, _ => none

@[simp] theorem name_freeze (v : Variable) (value : Value) : (v.freeze value).name = v.name := rfl

end Variable

/-- Variables in the order of their declaration. The index tells where the variable of a name
stands, and every lookup goes through it. -/
structure VariableSet where
  declared : List Variable
  nodup : (declared.map Variable.name).Nodup
  index : NameMap Nat := NameMap.positions (declared.map Variable.name)
  index_eq : index = NameMap.positions (declared.map Variable.name) := by rfl

namespace VariableSet

def empty : VariableSet where
  declared := []
  nodup := .nil

def names (set : VariableSet) : List String := set.declared.map Variable.name

def domain (set : VariableSet) : NameSet := set.index.domain

/-- The index maps each declared name to its one position, and nothing else. -/
theorem get?_index (set : VariableSet) {n : String} {i : Nat} : set.index[n]? = some i ↔ set.names[i]? = some n := by
  rw [set.index_eq]
  exact NameMap.get?_positions set.nodup

def get? (set : VariableSet) (name : String) : Option Variable := set.index[name]?.bind (set.declared[·]?)

def contains (set : VariableSet) (name : String) : Bool := set.index.contains name

theorem index_of_getElem? (set : VariableSet) {v : Variable} {i : Nat} (h : set.declared[i]? = some v) (n : String) :
    set.index[n]? = some i ↔ v.name = n := by
  rw [get?_index, names, List.getElem?_map, h, Option.map_some, Option.some_inj]

theorem find?_of_mem (set : VariableSet) {v : Variable} (h : v ∈ set.declared) :
    set.declared.find? (·.name == v.name) = some v := by
  obtain ⟨before, behind, heq⟩ := List.append_of_mem h
  refine List.find?_eq_some_iff_append.2 ⟨by simp, before, behind, heq, fun w hw => ?_⟩
  have hnodup := set.nodup
  rw [heq, List.map_append, List.map_cons, List.nodup_append] at hnodup
  have hne := hnodup.2.2 w.name (List.mem_map_of_mem hw) v.name List.mem_cons_self
  simpa using hne

theorem index_eq_none_iff (set : VariableSet) {n : String} : set.index[n]? = none ↔ n ∉ set.names := by
  simp only [Option.eq_none_iff_forall_ne_some, ne_eq, get?_index, List.mem_iff_getElem?, not_exists]

theorem get?_eq_find? (set : VariableSet) (name : String) : set.get? name = set.declared.find? (·.name == name) := by
  unfold get?
  cases hi : set.index[name]? with
  | none =>
    refine (List.find?_eq_none.2 fun v hv hname => ?_).symm
    exact set.index_eq_none_iff.1 hi (List.mem_map.2 ⟨v, hv, beq_iff_eq.1 hname⟩)
  | some i =>
    obtain ⟨v, hv, rfl⟩ := Option.map_eq_some_iff.1 (List.getElem?_map .. ▸ set.get?_index.1 hi)
    rw [Option.bind_some, hv, find?_of_mem set (List.mem_of_getElem? hv)]

theorem get?_of_mem {set : VariableSet} {v : Variable} (h : v ∈ set.declared) : set.get? v.name = some v := by
  rw [get?_eq_find?, find?_of_mem set h]

theorem mem_of_get? {set : VariableSet} {name : String} {v : Variable} (h : set.get? name = some v) :
    v ∈ set.declared := by
  rw [get?_eq_find?] at h
  exact List.mem_of_find?_eq_some h

theorem name_of_get? {set : VariableSet} {name : String} {v : Variable} (h : set.get? name = some v) :
    v.name = name := by
  rw [get?_eq_find?] at h
  simpa using List.find?_some h

theorem contains_eq (set : VariableSet) (name : String) : set.contains name = set.names.contains name := by
  rw [contains, Std.ExtTreeMap.contains_eq_isSome_getElem?, Bool.eq_iff_iff, List.contains_iff_mem,
    Option.isSome_iff_ne_none, ne_eq, index_eq_none_iff, Classical.not_not]

theorem domain_eq (set : VariableSet) : set.domain = NameSet.ofNames set.names := by
  refine Std.ExtTreeSet.ext_mem fun n => ?_
  rw [domain, NameMap.domain, NameSet.mem_ofNames, NameSet.mem_ofNames, NameMap.mem_keys_iff, List.mem_iff_getElem?]
  simp only [get?_index]

theorem ext_declared {set set' : VariableSet} (h : set.declared = set'.declared) : set = set' := by
  have hindex : set.index = set'.index := by rw [set.index_eq, set'.index_eq, h]
  cases set
  cases set'
  cases h
  cases hindex
  rfl

/-- Other variables of the same names in the same places. -/
def redeclare (set : VariableSet) (vs : List Variable) (h : vs.map Variable.name = set.names) : VariableSet where
  declared := vs
  nodup := h ▸ set.nodup
  index := set.index
  index_eq := set.index_eq.trans (congrArg NameMap.positions h.symm)

theorem names_modify (set : VariableSet) (i : Nat) {f : Variable → Variable} (hf : ∀ v, (f v).name = v.name) :
    (set.declared.modify i f).map Variable.name = set.names := by
  refine List.ext_getElem? fun j => ?_
  rw [names, List.getElem?_map, List.getElem?_map, List.getElem?_modify]
  cases set.declared[j]? with
  | none => rfl
  | some v => by_cases hij : i = j <;> simp [hij, hf]

def update (set : VariableSet) (name : String) (f : Variable → Variable) (hf : ∀ v, (f v).name = v.name) :
    VariableSet :=
  match set.index[name]? with
  | none => set
  | some i => set.redeclare (set.declared.modify i f) (set.names_modify i hf)

theorem declared_update (set : VariableSet) (name : String) (f : Variable → Variable) (hf : ∀ v, (f v).name = v.name) :
    (set.update name f hf).declared = set.declared.map fun v => if v.name = name then f v else v := by
  refine List.ext_getElem? fun j => ?_
  rw [List.getElem?_map]
  unfold update
  cases hi : set.index[name]? with
  | none =>
    cases hv : set.declared[j]? with
    | none => simp
    | some v =>
      have hname := set.index_of_getElem? hv name
      simp_all
  | some i =>
    simp only [redeclare, List.getElem?_modify]
    cases hv : set.declared[j]? with
    | none => rfl
    | some v =>
      have hname := set.index_of_getElem? hv name
      simp_all

theorem names_set (set : VariableSet) {v : Variable} {i : Nat} (h : set.index[v.name]? = some i) :
    (set.declared.set i v).map Variable.name = set.names := by
  obtain ⟨hi, hname⟩ := List.getElem?_eq_some_iff.1 (set.get?_index.1 h)
  rw [List.map_set, ← hname]
  exact List.set_getElem_self hi

/-- Puts a variable in the place of the one of its name, or at the end. -/
def put (set : VariableSet) (v : Variable) : VariableSet :=
  match h : set.index[v.name]? with
  | some i => set.redeclare (set.declared.set i v) (set.names_set h)
  | none =>
    { declared := set.declared ++ [v]
      nodup := by
        rw [List.map_append, List.nodup_append]
        refine ⟨set.nodup, by simp, ?_⟩
        intro a ha b hb heq
        simp only [List.map_cons, List.map_nil, List.mem_singleton] at hb
        subst hb heq
        obtain ⟨i, hi⟩ := List.mem_iff_getElem?.1 ha
        rw [set.get?_index.2 hi] at h
        cases h
      index := set.index.insert v.name set.declared.length
      index_eq := by
        rw [List.map_append, List.map_singleton, NameMap.positions_concat, List.length_map, set.index_eq] }

theorem declared_put (set : VariableSet) (v : Variable) : (set.put v).declared =
    if v.name ∈ set.names then set.declared.map fun w => if w.name = v.name then v else w
    else set.declared ++ [v] := by
  unfold put
  split
  · next i hi =>
    have hmem : v.name ∈ set.names := List.mem_of_getElem? (set.get?_index.1 hi)
    rw [if_pos hmem]
    refine List.ext_getElem? fun j => ?_
    rw [List.getElem?_map]
    simp only [redeclare, List.getElem?_set]
    cases hw : set.declared[j]? with
    | none => grind
    | some w =>
      have hname := set.index_of_getElem? hw v.name
      grind
  · next hi => rw [if_neg (set.index_eq_none_iff.1 hi)]

/-- Declares a variable in place. One with a fault is refused. -/
def declare (v : Variable) : ExceptT SheetError (StateM VariableSet) Unit := do
  if let some fault := v.fault? then throw (.definition v.name fault)
  modify (·.put v)

def insertInPlace (set : VariableSet) (v : Variable) : Except SheetError Unit × VariableSet := (declare v).run.run set

def insert (set : VariableSet) (v : Variable) : Except SheetError VariableSet :=
  let (answer, set) := set.insertInPlace v
  answer.map fun _ => set

theorem insertInPlace_of_fault (set : VariableSet) {v : Variable} {fault : DefinitionFault} (h : v.fault? = some fault) :
    set.insertInPlace v = (.error (.definition v.name fault), set) := by
  rw [insertInPlace, declare, h]
  rfl

theorem insertInPlace_of_sound (set : VariableSet) {v : Variable} (h : v.fault? = none) :
    set.insertInPlace v = (.ok (), set.put v) := by
  rw [insertInPlace, declare, h]
  rfl

theorem insert_eq (set : VariableSet) (v : Variable) : set.insert v = match v.fault? with
    | some fault => .error (.definition v.name fault)
    | none => .ok (set.put v) := by
  rw [insert]
  cases h : v.fault? with
  | some fault =>
    rw [insertInPlace_of_fault set h]
    rfl
  | none =>
    rw [insertInPlace_of_sound set h]
    rfl

def insertAll (set : VariableSet) (vs : List Variable) : Except SheetError VariableSet :=
  vs.foldlM insert set

/-- The variables of a list that can be declared; the others are passed over. -/
def ofList (vs : List Variable) : VariableSet :=
  vs.foldl (fun set v => (set.insertInPlace v).2) empty

def freeze (set : VariableSet) (name : String) (value : Value) : VariableSet :=
  set.update name (·.freeze value) fun _ => rfl

theorem declared_freeze (set : VariableSet) (name : String) (value : Value) :
    (set.freeze name value).declared = set.declared.map fun v => if v.name = name then v.freeze value else v :=
  set.declared_update name _ _

def write? (set : VariableSet) (name : String) (value : Value) : Option (Value × VariableSet) :=
  (set.get? name).map fun v => (v.clamp value, set.freeze name (v.clamp value))

end VariableSet

end LiveSheet
