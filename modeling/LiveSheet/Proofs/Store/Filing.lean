import LiveSheet.Proofs.Command.Agreement
import LiveSheet.Proofs.Json.Reading
import Mathlib.Data.List.TakeWhile

/-! The state file. What is read from it is what was written, but for the numbers its format does not express, as long
as the brackets of the values nest within its limit; a file with a deeper value is not read any more. So a store with a
file answers like one in memory up to the first value that is too deep. -/

namespace LiveSheet

namespace NameMap
variable {α β : Type}

theorem ofEntries_eq_ofList (entries : List (String × α)) : ofEntries entries = Std.ExtTreeMap.ofList entries compare := by
  have hfold : ∀ (entries : List (String × α)) (m : NameMap α),
      entries.foldl (fun m entry => m.insert entry.1 entry.2) m = m.insertMany entries := by
    intro entries
    induction entries with
    | nil => exact fun m => Std.ExtTreeMap.insertMany_nil.symm
    | cons entry entries ih => exact fun m => (ih _).trans Std.ExtTreeMap.insertMany_cons.symm
  rw [Std.ExtTreeMap.ofList_eq_insertMany_empty]
  exact hfold entries ∅

theorem ofEntries_toList (m : NameMap α) (f : α → β) :
    ofEntries (m.toList.map fun (n, a) => (n, f a)) = m.map fun _ => f := by
  refine Std.ExtTreeMap.ext_getElem? fun n => ?_
  rw [ofEntries_eq_ofList, Std.ExtTreeMap.getElem?_map]
  cases hn : m[n]? with
  | some a =>
    refine Std.ExtTreeMap.getElem?_ofList_of_mem (Std.ReflCmp.compare_self) ?_ ?_
    · exact List.pairwise_map.2 m.distinct_keys_toList
    · exact List.mem_map.2 ⟨(n, a), Std.ExtTreeMap.mem_toList_iff_getElem?_eq_some.2 hn, rfl⟩
  | none =>
    refine Std.ExtTreeMap.getElem?_ofList_of_contains_eq_false ?_
    rw [← Bool.not_eq_true, List.contains_iff_mem, List.map_map, List.mem_map]
    rintro ⟨⟨n', a⟩, hmem, rfl⟩
    rw [Std.ExtTreeMap.mem_toList_iff_getElem?_eq_some] at hmem
    cases hn.symm.trans hmem

theorem map_insert (m : NameMap α) (n : String) (a : α) (f : α → β) :
    (m.insert n a).map (fun _ => f) = (m.map fun _ => f).insert n (f a) := by
  refine Std.ExtTreeMap.ext_getElem? fun n' => ?_
  rw [Std.ExtTreeMap.getElem?_map, get?_insert, get?_insert, Std.ExtTreeMap.getElem?_map]
  split <;> rfl

end NameMap

namespace Datum
variable {α β : Type} {f : Datum → Option β} {g : α → Datum}

theorem map?_toList {r : α → β} (m : NameMap α) (h : ∀ (n : String) a, m[n]? = some a → f (g a) = some (r a)) :
    map? f (.table (m.toList.map fun (n, a) => (n, g a))) = some (m.map fun _ => r) := by
  have hentries : ∀ l : List (String × α), (∀ e ∈ l, f (g e.2) = some (r e.2)) →
      (l.map fun (n, a) => (n, g a)).mapM (fun e => (f e.2).map (e.1, ·)) = some (l.map fun (n, a) => (n, r a)) := by
    intro l hl
    induction l with
    | nil => rfl
    | cons e l ih =>
      obtain ⟨he, hl⟩ := List.forall_mem_cons.1 hl
      rw [List.map_cons, List.mapM_cons, ih hl]
      simp [he]
  rw [map?, entries?, Option.bind_some, hentries _ fun (n, a) hmem => h n a
    (Std.ExtTreeMap.mem_toList_iff_getElem?_eq_some.1 hmem), Option.map_some, NameMap.ofEntries_toList]

theorem map?_toList_eq_none {m : NameMap α} {n : String} {a : α} (hn : m[n]? = some a) (h : f (g a) = none) :
    map? f (.table (m.toList.map fun (n, a) => (n, g a))) = none := by
  have hentries : ∀ l : List (String × α), (n, a) ∈ l →
      (l.map fun (n, a) => (n, g a)).mapM (fun e => (f e.2).map (e.1, ·)) = none := by
    intro l hl
    induction l with
    | nil => cases hl
    | cons e l ih =>
      rw [List.map_cons, List.mapM_cons]
      rcases List.mem_cons.1 hl with rfl | hl
      · simp [h]
      · rw [ih hl]
        cases (f (g e.2)) <;> rfl
  rw [map?, entries?, Option.bind_some, hentries _ (Std.ExtTreeMap.mem_toList_iff_getElem?_eq_some.2 hn)]
  rfl

end Datum

namespace Value

mutual

def nest : Value → Nat
  | array items => nestItems items + 1
  | null => 0
  | bool _ => 0
  | number _ => 0
  | string _ => 0

def nestItems : List Value → Nat
  | [] => 0
  | v :: vs => max v.nest (nestItems vs)

end

/-- A finite number in a data file: either zero is zero. -/
def filedNumber (n : Float) : Float := if n == 0 then 0 else n

mutual

/-- What a data file makes of a value: numbers that are not finite become null. -/
def filed : Value → Value
  | null => null
  | bool b => bool b
  | number n => if n.isFinite then number (filedNumber n) else null
  | string s => string s
  | array items => array (filedItems items)

def filedItems : List Value → List Value
  | [] => []
  | v :: vs => v.filed :: filedItems vs

end

/-- The text of a number is read as the number. -/
def ReadsBack (n : Float) : Prop := Json.parse? (Number.dataFile.writeShort n) = some (.number (filedNumber n))

mutual

/-- The finite numbers of a value are read back. -/
def Legible : Value → Prop
  | number n => n.isFinite = true → ReadsBack n
  | array items => LegibleItems items
  | null => True
  | bool _ => True
  | string _ => True

def LegibleItems : List Value → Prop
  | [] => True
  | v :: vs => v.Legible ∧ LegibleItems vs

end

theorem isFinite_filedNumber {n : Float} (h : n.isFinite = true) : (filedNumber n).isFinite = true := by
  unfold filedNumber
  split
  · decide +kernel
  · exact h

theorem filedNumber_filedNumber (n : Float) : filedNumber (filedNumber n) = filedNumber n := by
  unfold filedNumber
  by_cases h : (n == 0) = true
  · simp only [if_pos h, ite_self]
  · simp only [if_neg h]

theorem readsBack_of {n : Float} (text : String) (hwritten : Number.dataFile.writeShort n = text)
    (hfiled : filedNumber n = n) (hread : Json.parse? text = some (.number n)) : ReadsBack n := by
  rw [ReadsBack, hwritten, hfiled, hread]

theorem readsBack_zero : ReadsBack 0 :=
  readsBack_of "0" (by decide +kernel) (ite_self _) rfl

theorem readsBack_filedNumber {n : Float} (h : ReadsBack n) : ReadsBack (filedNumber n) := by
  unfold filedNumber
  split
  · exact readsBack_zero
  · exact h

mutual

theorem filed_filed : (v : Value) → v.filed.filed = v.filed
  | null => rfl
  | bool _ => rfl
  | string _ => rfl
  | number n => by
    rw [filed]
    split
    · next h => rw [filed, if_pos (isFinite_filedNumber h), filedNumber_filedNumber]
    · rfl
  | array items => by rw [filed, filed, filedItems_filedItems items]

theorem filedItems_filedItems : (vs : List Value) → filedItems (filedItems vs) = filedItems vs
  | [] => rfl
  | v :: vs => by rw [filedItems, filedItems, filed_filed v, filedItems_filedItems vs]

end

mutual

theorem nest_filed : (v : Value) → v.filed.nest = v.nest
  | null => rfl
  | bool _ => rfl
  | string _ => rfl
  | number n => by
    rw [filed]
    split <;> rfl
  | array items => by rw [filed, nest, nest, nestItems_filedItems items]

theorem nestItems_filedItems : (vs : List Value) → nestItems (filedItems vs) = nestItems vs
  | [] => rfl
  | v :: vs => by rw [filedItems, nestItems, nestItems, nest_filed v, nestItems_filedItems vs]

end

mutual

theorem Legible.filed : {v : Value} → v.Legible → v.filed.Legible
  | null, _ => trivial
  | bool _, _ => trivial
  | string _, _ => trivial
  | number n, h => by
    rw [Value.filed]
    split
    · next hn => exact fun _ => readsBack_filedNumber (h hn)
    · trivial
  | array _, h => LegibleItems.filedItems h

theorem LegibleItems.filedItems : {vs : List Value} → LegibleItems vs → LegibleItems (filedItems vs)
  | [], _ => trivial
  | _ :: _, h => ⟨h.1.filed, h.2.filedItems⟩

end

mutual

theorem Legible.numbered : {v : Value} → v.Legible → v.toJson.Numbered
  | null, _ => trivial
  | bool _, _ => trivial
  | string _, _ => trivial
  | number n, h => by
    rw [toJson]
    split
    · next hn => exact ⟨_, h hn⟩
    · trivial
  | array _, h => LegibleItems.numbered h

theorem LegibleItems.numbered : {vs : List Value} → LegibleItems vs → Json.NumberedItems (itemsToJson vs)
  | [], _ => trivial
  | _ :: _, h => ⟨h.1.numbered, h.2.numbered⟩

end

mutual

theorem toValue?_datum (depth : Nat) : {v : Value} → v.Legible →
    (v.toJson.datum depth).toValue? = if v.nest ≤ depth then some v.filed else none
  | null, _ => by simp [toJson, Json.datum, Datum.toValue?, nest, filed]
  | bool _, _ => by simp [toJson, Json.datum, Datum.toValue?, nest, filed]
  | string _, _ => by simp [toJson, Json.datum, Datum.toValue?, nest, filed]
  | number n, h => by
    rw [toJson, nest, if_pos (Nat.zero_le _), filed]
    split
    · next hn =>
      have hread : Json.parse? (Number.dataFile.writeShort n) = some (.number (filedNumber n)) := h hn
      rw [Json.datum, hread]
      rfl
    · rfl
  | array items, h => by
    rw [toJson, Json.datum, nest, filed]
    cases depth with
    | zero => rfl
    | succ depth =>
      rw [if_neg (Nat.succ_ne_zero depth), Datum.toValue?, Nat.add_sub_cancel, toValues?_data depth h]
      simp only [Nat.add_le_add_iff_right]
      split <;> rfl

theorem toValues?_data (depth : Nat) : {vs : List Value} → LegibleItems vs →
    Datum.toValues? (Json.data depth (itemsToJson vs)) = if nestItems vs ≤ depth then some (filedItems vs) else none
  | [], _ => by simp [itemsToJson, Json.data, Datum.toValues?, nestItems, filedItems]
  | v :: vs, h => by
    rw [itemsToJson, Json.data, Datum.toValues?, toValue?_datum depth h.1, toValues?_data depth h.2, nestItems, filedItems]
    simp only [Nat.max_le]
    by_cases hv : v.nest ≤ depth <;> by_cases hvs : nestItems vs ≤ depth <;> simp [hv, hvs]

end

end Value

namespace Store

namespace Document

/-- How deep the brackets of a value in a state file may nest, inside those of its scope and of the file. -/
def depth : Nat := Json.depthLimit - 2

def filed (document : Document) : Document := document.map fun _ values => values.map fun _ => Value.filed

def All (p : Value → Prop) (document : Document) : Prop :=
  ∀ (key name : String) values value, document[key]? = some values → values[name]? = some value → p value

variable {document : Document}

def tree (document : Document) : Json :=
  .object (document.toList.map fun (key, values) =>
    (key, .object (values.toList.map fun (name, value) => (name, value.toJson))))

theorem numbered_tree (h : document.All Value.Legible) : document.tree.Numbered := by
  refine Json.numberedMembers_iff.2 fun member hmember => ?_
  obtain ⟨⟨key, values⟩, hvalues, rfl⟩ := List.mem_map.1 hmember
  refine Json.numberedMembers_iff.2 fun member hmember => ?_
  obtain ⟨⟨name, value⟩, hvalue, rfl⟩ := List.mem_map.1 hmember
  rw [Std.ExtTreeMap.mem_toList_iff_getElem?_eq_some] at hvalues hvalue
  exact (h key name values value hvalues hvalue).numbered

theorem datum_tree (document : Document) : document.tree.datum Json.depthLimit =
    .table (document.toList.map fun (key, values) =>
      (key, .table (values.toList.map fun (name, value) => (name, value.toJson.datum depth)))) := by
  rw [tree, Json.datum, if_neg (by decide), Json.entries_eq_map, List.map_map]
  refine congrArg Datum.table (List.map_congr_left fun (key, values) _ => ?_)
  refine congrArg (Prod.mk key) ?_
  rw [Json.datum, if_neg (by decide), Json.entries_eq_map, List.map_map]
  rfl

def valuesDatum (values : NameMap Value) : Datum :=
  .table (values.toList.map fun (name, value) => (name, value.toJson.datum depth))

theorem map?_valuesDatum {values : NameMap Value} (h : ∀ (name : String) value, values[name]? = some value →
    value.Legible ∧ value.nest ≤ depth) :
    (valuesDatum values).map? Datum.toValue? = some (values.map fun _ => Value.filed) := by
  refine Datum.map?_toList (g := fun value => value.toJson.datum depth) values fun name value hvalue => ?_
  obtain ⟨hlegible, hdepth⟩ := h name value hvalue
  rw [Value.toValue?_datum depth hlegible, if_pos hdepth]

theorem map?_valuesDatum_eq_none {values : NameMap Value} {name : String} {value : Value}
    (hvalue : values[name]? = some value) (h : value.Legible) (hdepth : depth < value.nest) :
    (valuesDatum values).map? Datum.toValue? = .none := by
  refine Datum.map?_toList_eq_none (g := fun value => value.toJson.datum depth) hvalue ?_
  rw [Value.toValue?_datum depth h, if_neg (Nat.not_le.2 hdepth)]

theorem parse?_text_eq (h : document.All Value.Legible) : parse? document.text =
    Datum.map? (·.map? Datum.toValue?) (.table (document.toList.map fun (key, values) => (key, valuesDatum values))) := by
  have htext : document.text.toList.all Text.isBlank = false := by
    obtain ⟨tail, htail⟩ : ∃ tail, document.tree.prettyChars 0 = '\x7b' :: tail := by
      rw [tree, Json.prettyChars, Json.encloseLines]
      split <;> exact ⟨_, rfl⟩
    have hopen : document.text.toList = document.tree.prettyChars 0 := String.toList_ofList
    rw [hopen, htail]
    rfl
  have hread : Json.parse? document.text = some (document.tree.datum Json.depthLimit) := Json.parse?_pretty (numbered_tree h)
  rw [parse?, if_neg (by simp [htext]), hread, datum_tree]
  rfl

/-- A state file is read as what was written, but for what its numbers lose. -/
theorem parse?_text (h : document.All Value.Legible) (hdepth : document.All fun value => value.nest ≤ depth) :
    parse? document.text = some document.filed := by
  rw [parse?_text_eq h]
  exact Datum.map?_toList (g := valuesDatum) document fun key values hvalues => map?_valuesDatum fun name value hvalue =>
    ⟨h key name values value hvalues hvalue, hdepth key name values value hvalues hvalue⟩

theorem parse?_text_eq_none (h : document.All Value.Legible) {key name : String} {values : NameMap Value} {value : Value}
    (hvalues : document[key]? = some values) (hvalue : values[name]? = some value) (hdepth : depth < value.nest) :
    parse? document.text = .none := by
  rw [parse?_text_eq h]
  exact Datum.map?_toList_eq_none (g := valuesDatum) hvalues
    (map?_valuesDatum_eq_none hvalue (h key name values value hvalues hvalue) hdepth)

theorem All.write {p : Value → Prop} (h : document.All p) {value : Value} (hvalue : p value) (scope : ScopeId)
    (name : String) : (document.write scope name value).All p := by
  intro key name' values value' hvalues hvalue'
  rw [getElem?_write] at hvalues
  split at hvalues
  · cases hvalues
    rw [NameMap.get?_insert] at hvalue'
    split at hvalue'
    · exact Option.some.inj hvalue' ▸ hvalue
    · rw [Document.values] at hvalue'
      cases hscope : document[scope.key]? with
      | some values => exact h scope.key name' values value' hscope (by simpa [hscope] using hvalue')
      | none => simp [hscope] at hvalue'
  · exact h key name' values value' hvalues hvalue'

theorem All.map {p q : Value → Prop} (h : document.All p) (hpq : ∀ value, p value → q value.filed) : document.filed.All q := by
  intro key name values value hvalues hvalue
  rw [filed, Std.ExtTreeMap.getElem?_map] at hvalues
  obtain ⟨values, hkey, rfl⟩ := Option.map_eq_some_iff.1 hvalues
  rw [Std.ExtTreeMap.getElem?_map] at hvalue
  obtain ⟨value, hname, rfl⟩ := Option.map_eq_some_iff.1 hvalue
  exact hpq value (h key name values value hkey hname)

theorem values_filed (document : Document) (scope : ScopeId) :
    document.filed.values scope = (document.values scope).map fun _ => Value.filed := by
  rw [values, values, filed, Std.ExtTreeMap.getElem?_map]
  cases document[scope.key]? with
  | some values => rfl
  | none => exact Std.ExtTreeMap.ext_getElem? fun name => by simp

theorem filed_write (document : Document) (scope : ScopeId) (name : String) (value : Value) :
    (document.write scope name value).filed = document.filed.write scope name value.filed := by
  refine Std.ExtTreeMap.ext_getElem? fun key => ?_
  rw [filed, Std.ExtTreeMap.getElem?_map, getElem?_write, getElem?_write, values_filed, filed, Std.ExtTreeMap.getElem?_map]
  split
  · rw [Option.map_some, NameMap.map_insert]
  · rfl

theorem filed_filed (document : Document) : document.filed.filed = document.filed := by
  simp only [filed, Std.ExtTreeMap.map_map, Value.filed_filed]

end Document

namespace Access

/-- What a store answers: the values of a scope, and none where something was kept. -/
def answer (store : Store) : Access → Except SheetError (NameMap Value)
  | persist scope name value => (store.persist scope name value).map fun _ => ∅
  | load scope => store.load scope

def next (store : Store) : Access → Store
  | persist scope name value => store.keep scope name value
  | load scope => store.note (.load scope)

def value? : Access → Option Value
  | persist _ _ value => some value
  | load _ => .none

/-- Whether a state file can hold the value that is kept. -/
def fits (access : Access) : Bool := access.value?.all fun value => value.nest ≤ Document.depth

end Access

def answers (store : Store) : List Access → List (Except SheetError (NameMap Value))
  | [] => []
  | access :: accesses => access.answer store :: (access.next store).answers accesses

section File
variable {path : String} {text : Option String} {document : Document}

/-- A state file is read as a document, but for what its numbers lose, and will be after each write that fits. -/
structure Mirrors (path : String) (text : Option String) (document : Document) : Prop where
  read : readFile path text = .ok document.filed
  legible : document.All Value.Legible
  shallow : document.All fun value => value.nest ≤ Document.depth

theorem mirrors_new (path : String) : Mirrors path .none ∅ where
  read := congrArg Except.ok (Std.ExtTreeMap.ext_getElem? fun key => by simp [Document.filed])
  legible := by simp [Document.All]
  shallow := by simp [Document.All]

theorem readFile_text (h : document.All Value.Legible) (hshallow : document.All fun value => value.nest ≤ Document.depth) :
    readFile path (some document.text) = .ok document.filed := by
  rw [readFile, Document.parse?_text h hshallow]

theorem keep_file (h : Mirrors path text document) (scope : ScopeId) (name : String) (value : Value) :
    (file path text).keep scope name value = file path (some (document.filed.write scope name value).text) ∧
      (file path text).persist scope name value = .ok ((file path text).keep scope name value) := by
  rw [keep, persist, persistInPlace, h.read]
  exact ⟨rfl, rfl⟩

theorem Mirrors.write (h : Mirrors path text document) (scope : ScopeId) (name : String) {value : Value}
    (hvalue : value.Legible) (hnest : value.nest ≤ Document.depth) :
    Mirrors path (some (document.filed.write scope name value).text) (document.write scope name value) where
  read := by
    rw [readFile_text ((h.legible.map fun _ => Value.Legible.filed).write hvalue scope name)
      ((h.shallow.map fun value hvalue => value.nest_filed.symm ▸ hvalue).write hnest scope name),
      Document.filed_write, Document.filed_write, Document.filed_filed]
  legible := h.legible.write hvalue scope name
  shallow := h.shallow.write hnest scope name

/-- A file with a value that is too deep is never read again. -/
theorem readFile_deep (h : Mirrors path text document) (scope : ScopeId) (name : String) {value : Value}
    (hvalue : value.Legible) (hnest : Document.depth < value.nest) :
    readFile path (some (document.filed.write scope name value).text) = .error (.invalidState path) := by
  have hscope : (document.filed.write scope name value)[scope.key]? = some ((document.filed.values scope).insert name value) := by
    rw [Document.getElem?_write, if_pos rfl]
  have hname : ((document.filed.values scope).insert name value)[name]? = some value := by
    rw [NameMap.get?_insert, if_pos rfl]
  rw [readFile, Document.parse?_text_eq_none ((h.legible.map fun _ => Value.Legible.filed).write hvalue scope name)
    hscope hname hnest]

theorem answers_unread (h : readFile path text = .error (.invalidState path)) (accesses : List Access) :
    (file path text).answers accesses = accesses.map fun _ => .error (.invalidState path) := by
  induction accesses with
  | nil => rfl
  | cons access accesses ih =>
    cases access with
    | persist scope name value =>
      rw [answers, Access.answer, Access.next, keep, persist, persistInPlace, h, List.map_cons]
      exact congrArg (List.cons _) ih
    | load scope =>
      rw [answers, Access.answer, Access.next, load, h, List.map_cons]
      exact congrArg (List.cons _) ih

def filedAnswer (answer : Except SheetError (NameMap Value)) : Except SheetError (NameMap Value) :=
  answer.map fun values => values.map fun _ => Value.filed

theorem filedAnswer_empty : filedAnswer (.ok ∅) = .ok ∅ :=
  congrArg Except.ok (Std.ExtTreeMap.ext_getElem? fun name => by simp)

/-- What a document holds for every scope is what the memory holds for it. -/
def Document.Holds (document : Document) (state : State) : Prop := ∀ id, document.values id = state.values id

theorem Document.holds_empty : (∅ : Document).Holds ∅ := fun id => by simp [Document.values, State.values]

theorem Document.Holds.write {state : State} (h : document.Holds state) (scope : ScopeId) (name : String) (value : Value) :
    (document.write scope name value).Holds (state.write scope name value) := by
  intro id
  rw [Document.values_write, State.values_write, h scope, h id]

theorem answers_mirrors {state : State} (h : Mirrors path text document) (hheld : document.Holds state)
    (accesses : List Access)
    (hlegible : ∀ access ∈ accesses, ∀ value ∈ access.value?, value.Legible) :
    (file path text).answers accesses =
      ((memory state).answers (accesses.takeWhile Access.fits)).map filedAnswer ++
        match accesses.dropWhile Access.fits with
        | [] => []
        | _ :: later => .ok ∅ :: later.map fun _ => .error (.invalidState path) := by
  -- The file mirrors the memory up to the first value that is too deep, and is unread from there to the end.
  induction accesses generalizing text document state with
  | nil => rfl
  | cons access accesses ih =>
    obtain ⟨hvalue, hlater⟩ := List.forall_mem_cons.1 hlegible
    cases access with
    | load scope =>
      have hload : (file path text).load scope = filedAnswer ((memory state).load scope) := by
        change (readFile path text).map _ = filedAnswer (.ok (state.values scope))
        rw [h.read, ← hheld scope]
        exact congrArg Except.ok (document.values_filed scope)
      have hnext : ((file path text).note (.load scope)).answers accesses = (file path text).answers accesses := rfl
      rw [List.takeWhile_cons_of_pos rfl, List.dropWhile_cons_of_pos rfl, answers, answers, Access.answer, hload,
        Access.next, hnext, ih h hheld hlater]
      rfl
    | persist scope name value =>
      have hvalue : value.Legible := hvalue value rfl
      obtain ⟨hkeep, hpersist⟩ := keep_file h scope name value
      rw [answers, Access.answer, Access.next, hpersist, hkeep]
      by_cases hnest : value.nest ≤ Document.depth
      · have hfits : (Access.persist scope name value).fits = true := decide_eq_true hnest
        rw [List.takeWhile_cons_of_pos hfits, List.dropWhile_cons_of_pos hfits, answers, Access.next,
          ih (h.write scope name hvalue hnest) (hheld.write scope name value) hlater, List.map_cons, List.cons_append]
        exact congrArg₂ List.cons filedAnswer_empty.symm rfl
      · have hfits : ¬(Access.persist scope name value).fits = true := by simpa [Access.fits, Access.value?] using hnest
        rw [List.takeWhile_cons_of_neg hfits, List.dropWhile_cons_of_neg hfits,
          answers_unread (readFile_deep h scope name hvalue (Nat.not_le.1 hnest))]
        rfl

theorem filedAnswer_answers {state : State} (h : ∀ id, ((state.values id).map fun _ => Value.filed) = state.values id)
    (accesses : List Access) (hfiled : ∀ access ∈ accesses, ∀ value ∈ access.value?, value.filed = value) :
    ((memory state).answers accesses).map filedAnswer = (memory state).answers accesses := by
  induction accesses generalizing state with
  | nil => rfl
  | cons access accesses ih =>
    obtain ⟨hvalue, hlater⟩ := List.forall_mem_cons.1 hfiled
    cases access with
    | load scope =>
      have hnext : (Access.load scope).next (memory state) = memory state := rfl
      rw [answers, List.map_cons, hnext, ih h hlater]
      exact congrArg₂ List.cons (congrArg Except.ok (h scope)) rfl
    | persist scope name value =>
      have hwritten : ∀ id, (((state.write scope name value).values id).map fun _ => Value.filed) =
          (state.write scope name value).values id := by
        intro id
        rw [State.values_write]
        split
        · rw [NameMap.map_insert, h, hvalue value rfl]
        · exact h id
      have hnext : (Access.persist scope name value).next (memory state) = memory (state.write scope name value) := rfl
      rw [answers, List.map_cons, hnext, ih hwritten hlater]
      exact congrArg₂ List.cons filedAnswer_empty rfl

/-- A store with a new state file answers like a new one in memory, with numbers the format does not express as null,
up to the first value whose brackets nest too deep. From then on it refuses everything. -/
theorem answers_file (path : String) (accesses : List Access)
    (hlegible : ∀ access ∈ accesses, ∀ value ∈ access.value?, value.Legible) :
    ((file path .none).answers accesses =
      ((memory ∅).answers (accesses.takeWhile Access.fits)).map filedAnswer ++
        match accesses.dropWhile Access.fits with
        | [] => []
        | _ :: later => .ok ∅ :: later.map fun _ => .error (.invalidState path)) ∧
    ((∀ access ∈ accesses, access.fits = true ∧ ∀ value ∈ access.value?, value.filed = value) →
      (file path .none).answers accesses = (memory ∅).answers accesses) := by
  have hfile := answers_mirrors (mirrors_new path) Document.holds_empty accesses hlegible
  refine ⟨hfile, fun h => ?_⟩
  have htake : accesses.takeWhile Access.fits = accesses :=
    List.takeWhile_eq_self_iff.2 fun access hmem => (h access hmem).1
  have hdrop : accesses.dropWhile Access.fits = [] := List.dropWhile_eq_nil_iff.2 fun access hmem => (h access hmem).1
  have hempty : ∀ id, (((∅ : State).values id).map fun _ => Value.filed) = (∅ : State).values id := fun id =>
    Std.ExtTreeMap.ext_getElem? fun name => by simp [State.values]
  rw [hfile, htake, hdrop, filedAnswer_answers hempty accesses fun access hmem => (h access hmem).2]
  exact List.append_nil _

def visits : List Access :=
  [.persist (.page "inn") "hp" (.array [.number 7, .array [.string "a \"quoted\" line\n", .bool true], .number 0.5]),
    .load .global, .load (.page "inn")]

theorem answers_file_visits : (∀ access ∈ visits, ∀ value ∈ access.value?, value.Legible) ∧
    (∀ access ∈ visits, access.fits = true ∧ ∀ value ∈ access.value?, value.filed = value) ∧
    (file "/state.json" .none).answers visits = (memory ∅).answers visits := by
  have hseven : Value.filedNumber 7 = 7 := by decide +kernel
  have hhalf : Value.filedNumber 0.5 = 0.5 := by decide +kernel
  have hseven' : Value.ReadsBack 7 := Value.readsBack_of "7" (by decide +kernel) hseven rfl
  have hhalf' : Value.ReadsBack 0.5 := Value.readsBack_of "0.5" (by decide +kernel) hhalf rfl
  have hlegible : ∀ access ∈ visits, ∀ value ∈ access.value?, value.Legible := by
    simp [visits, Access.value?, Value.Legible, Value.LegibleItems, hseven', hhalf']
  have hfiled : ∀ access ∈ visits, access.fits = true ∧ ∀ value ∈ access.value?, value.filed = value := by
    have hfinite : (7 : Float).isFinite = true ∧ (0.5 : Float).isFinite = true := by decide +kernel
    refine List.forall_mem_cons.2 ⟨⟨by decide, ?_⟩, by simp [Access.fits, Access.value?]⟩
    simp [Access.value?, Value.filed, Value.filedItems, hseven, hhalf, hfinite]
  exact ⟨hlegible, hfiled, (answers_file "/state.json" visits hlegible).2 hfiled⟩

def lost : List Access := [.persist .global "x" (.number Number.nan), .load .global]

/-- Not a number is kept in memory, but comes back from a file as null. -/
theorem answers_file_lost : ∃ read kept : NameMap Value,
    (file "/state.json" .none).answers lost = [.ok ∅, .ok read] ∧ (memory ∅).answers lost = [.ok ∅, .ok kept] ∧
    read["x"]? = some .null ∧ kept["x"]? = some (.number Number.nan) := by
  have hnan : Number.nan.isFinite = false := by decide +kernel
  have hlegible : ∀ access ∈ lost, ∀ value ∈ access.value?, value.Legible := by
    simp [lost, Access.value?, Value.Legible, hnan]
  let kept : NameMap Value := (State.write ∅ .global "x" (.number Number.nan)).values .global
  have hkept : kept["x"]? = some (.number Number.nan) := by
    simp only [kept, State.values_write, NameMap.get?_insert, if_true]
  refine ⟨kept.map fun _ => Value.filed, kept, ?_, rfl, ?_, hkept⟩
  · refine (answers_mirrors (mirrors_new "/state.json") Document.holds_empty lost hlegible).trans ?_
    exact congrArg₂ List.cons filedAnswer_empty rfl
  · rw [Std.ExtTreeMap.getElem?_map, hkept, Option.map_some, Value.filed, hnan]
    rfl

end File

end Store

end LiveSheet
