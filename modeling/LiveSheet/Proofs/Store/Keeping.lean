import LiveSheet.Proofs.Engine.Restart
import LiveSheet.Proofs.Json.Depth
import LiveSheet.Proofs.Store.Filing

/-! What stays in a store when something is written to it. A state file is read and written as a whole, so a value that
it cannot hold takes everything else with it; other values leave what is kept for other scopes as it is. -/

namespace LiveSheet

mutual

theorem Datum.Within.nest_le {depth : Nat} : {d : Datum} → d.Within depth → ∀ {v : Value}, d.toValue? = some v →
    v.nest ≤ depth
  | .null, _, _, hv => by
    cases hv
    exact Nat.zero_le _
  | .bool _, _, _, hv => by
    cases hv
    exact Nat.zero_le _
  | .number _, _, _, hv => by
    cases hv
    exact Nat.zero_le _
  | .string _, _, _, hv => by
    cases hv
    exact Nat.zero_le _
  | .array items, h, _, hv => by
    obtain ⟨vs, hvs, rfl⟩ := Option.map_eq_some_iff.1 hv
    cases h with
    | array depth _ h => exact Nat.succ_le_succ (Datum.nestItems_le items h hvs)

theorem Datum.nestItems_le {depth : Nat} : (items : List Datum) → (∀ d ∈ items, d.Within depth) → ∀ {vs : List Value},
    Datum.toValues? items = some vs → Value.nestItems vs ≤ depth
  | [], _, _, hvs => by
    cases hvs
    exact Nat.zero_le _
  | d :: items, h, _, hvs => by
    rw [Datum.toValues?] at hvs
    obtain ⟨hd, hitems⟩ := List.forall_mem_cons.1 h
    split at hvs
    · next v vs hv hrest =>
      cases hvs
      exact Nat.max_le.2 ⟨hd.nest_le hv, Datum.nestItems_le items hitems hrest⟩
    · cases hvs

end

theorem Datum.Within.of_map? {α : Type} {depth : Nat} {d : Datum} {f : Datum → Option α} {m : NameMap α}
    (h : d.Within (depth + 1)) (hm : d.map? f = some m) {n : String} {a : α} (hn : m[n]? = some a) :
    ∃ d' : Datum, d'.Within depth ∧ f d' = some a := by
  obtain ⟨entries, hentries, hm⟩ := Option.bind_eq_some_iff.1 hm
  obtain ⟨made, hmade, rfl⟩ := Option.map_eq_some_iff.1 hm
  obtain ⟨e, he, heq⟩ := exists_mem_of_mapM_eq_some hmade _ (NameMap.mem_of_get?_ofEntries hn)
  obtain ⟨a', ha', heq⟩ := Option.map_eq_some_iff.1 heq
  cases heq
  cases h with
  | table _ _ h =>
    cases hentries
    exact ⟨e.2, h e he, ha'⟩
  | invalid | null | bool | number | string | array => cases hentries

namespace Store

variable {store : Store} {path : String} {text : Option String} {document : Document} {value value' : Value}
  {scope id : ScopeId}

theorem Document.filed_eq (h : document.All fun v => v.filed = v) : document.filed = document := by
  refine Std.ExtTreeMap.ext_getElem? fun key => ?_
  rw [filed, Std.ExtTreeMap.getElem?_map]
  cases hkey : document[key]? with
  | none => rfl
  | some values =>
    refine congrArg some (Std.ExtTreeMap.ext_getElem? fun name => ?_)
    rw [Std.ExtTreeMap.getElem?_map]
    cases hname : values[name]? with
    | none => rfl
    | some v => exact congrArg some (h key name values v hkey hname)

/-- What is read from a state file nests no deeper than what can be written to it. -/
theorem shallow_readFile (h : readFile path text = .ok document) : document.All fun v => v.nest ≤ Document.depth := by
  intro key name values v hvalues hv
  cases text with
  | none =>
    cases h
    simp at hvalues
  | some text =>
    rw [readFile] at h
    split at h
    · next document' hparse =>
      cases h
      rw [Document.parse?] at hparse
      split at hparse
      · cases hparse
        simp at hvalues
      · obtain ⟨d, hd, hdocument⟩ := Option.bind_eq_some_iff.1 hparse
        have hwithin : d.Within (Document.depth + 1 + 1) := Json.within_of_parse? hd
        obtain ⟨d', hwithin', hmap⟩ := hwithin.of_map? hdocument hvalues
        obtain ⟨d'', hwithin'', hvalue⟩ := hwithin'.of_map? hmap hv
        exact hwithin''.nest_le hvalue
    · cases h

/-- A store still holds what it has for other scopes once a value is written. A file has to be able to hold the value,
and its numbers have to be read back; a store of the host has to keep the scopes apart, whatever it was asked. -/
def Keeps : Store → Value → Prop
  | file path text, value => value.Legible ∧ value.nest ≤ Document.depth ∧
      ∀ document, readFile path text = .ok document → document.All fun v => v.Legible ∧ v.filed = v
  | host answer asked, _ => ∀ later scope id (name : String) (value : Value), scope ≠ id →
      answer (asked ++ later ++ [.persist scope name value]) (.load id) = answer (asked ++ later) (.load id)
  | memory _, _ => True
  | none, _ => True

theorem mirrors_of_readFile (hread : readFile path text = .ok document)
    (h : document.All fun v => v.Legible ∧ v.filed = v) : Mirrors path text document where
  read := by rw [hread, Document.filed_eq fun key name values v hvalues hv => (h key name values v hvalues hv).2]
  legible key name values v hvalues hv := (h key name values v hvalues hv).1
  shallow := shallow_readFile hread

theorem keep_host (answer : List Access → Access → Except SheetError (NameMap Value)) (asked : List Access)
    (scope : ScopeId) (name : String) (value : Value) :
    (host answer asked).keep scope name value = host answer (asked ++ [.persist scope name value]) := rfl

theorem keep_of_error {error : SheetError} (h : readFile path text = .error error) (scope : ScopeId) (name : String)
    (value : Value) : (file path text).keep scope name value = file path text := by
  rw [keep, persistInPlace, h]

theorem Keeps.load_keep (h : store.Keeps value) (hne : scope ≠ id) (name : String) :
    (store.keep scope name value).load id = store.load id := by
  cases store with
  | none => rfl
  | memory state => exact congrArg Except.ok ((state.values_write scope name value id).trans (if_neg hne))
  | host answer asked =>
    rw [keep_host, load, load]
    simpa only [List.append_nil] using h [] scope id name value hne
  | file path text =>
    obtain ⟨hlegible, hnest, hheld⟩ := h
    cases hread : readFile path text with
    | error error => rw [keep_of_error hread]
    | ok document =>
      have hmirrors := mirrors_of_readFile hread (hheld document hread)
      rw [(keep_file hmirrors scope name value).1, load, load, (hmirrors.write scope name hlegible hnest).read,
        hmirrors.read, Document.filed_write]
      exact congrArg Except.ok ((document.filed.values_write scope name value.filed id).trans (if_neg hne))

theorem Keeps.keep (h : store.Keeps value) (h' : store.Keeps value') (scope : ScopeId) (name : String) :
    (store.keep scope name value).Keeps value' := by
  cases store with
  | none => trivial
  | memory _ => trivial
  | host answer asked =>
    rw [keep_host]
    intro later scope' id' name' v hne
    simpa only [List.append_assoc, List.cons_append, List.nil_append] using h (.persist scope name value :: later) scope' id' name' v hne
  | file path text =>
    obtain ⟨hlegible, hnest, hheld⟩ := h
    obtain ⟨hlegible', hnest', _⟩ := h'
    cases hread : readFile path text with
    | error error =>
      rw [keep_of_error hread]
      exact ⟨hlegible', hnest', hheld⟩
    | ok document =>
      have hmirrors := mirrors_of_readFile hread (hheld document hread)
      rw [(keep_file hmirrors scope name value).1]
      refine ⟨hlegible', hnest', fun next hnext => ?_⟩
      have hwritten := hmirrors.write scope name hlegible hnest
      cases hnext.symm.trans hwritten.read
      exact hwritten.legible.map fun v hv => ⟨hv.filed, v.filed_filed⟩

end Store

end LiveSheet
