import LiveSheet.Json.Reader
import LiveSheet.Scope
import LiveSheet.Value.Text

/-!
The values kept for every scope: in memory by the scope itself, and in a state file by its key.
The file is a JSON object of objects, one for each scope, with sorted names.
-/

namespace LiveSheet.Store

/-- Values by the name of the variable, by the scope. -/
abbrev State := Std.ExtTreeMap ScopeId (NameMap Value)

namespace State

def values (state : State) (scope : ScopeId) : NameMap Value := state[scope]?.getD ∅

def write (state : State) (scope : ScopeId) (name : String) (value : Value) : State :=
  state.insert scope ((values state scope).insert name value)

theorem getElem?_write (state : State) (scope : ScopeId) (name : String) (value : Value) (id : ScopeId) :
    (state.write scope name value)[id]? =
      if scope = id then some ((state.values scope).insert name value) else state[id]? := by
  rw [write, Std.ExtTreeMap.getElem?_insert]
  simp only [Std.compare_eq_iff_eq]

theorem values_write (state : State) (scope : ScopeId) (name : String) (value : Value) (id : ScopeId) :
    (state.write scope name value).values id =
      if scope = id then (state.values scope).insert name value else state.values id := by
  rw [values, getElem?_write]
  split <;> rfl

def count (state : State) : Nat := state.toList.foldl (fun n (_, values) => n + values.size) 0

end State

/-- What a state file holds: values by the name of the variable, by the key of the scope. -/
abbrev Document := NameMap (NameMap Value)

namespace Document

def values (document : Document) (scope : ScopeId) : NameMap Value := document[scope.key]?.getD ∅

def write (document : Document) (scope : ScopeId) (name : String) (value : Value) : Document :=
  document.insert scope.key ((values document scope).insert name value)

theorem getElem?_write (document : Document) (scope : ScopeId) (name : String) (value : Value) (key : String) :
    (document.write scope name value)[key]? =
      if scope.key = key then some ((document.values scope).insert name value) else document[key]? :=
  NameMap.get?_insert _ _ _ _

/-- Scopes do not share a key, so a write for one leaves the values of the others. -/
theorem values_write (document : Document) (scope : ScopeId) (name : String) (value : Value) (id : ScopeId) :
    (document.write scope name value).values id =
      if scope = id then (document.values scope).insert name value else document.values id := by
  rw [values, getElem?_write]
  by_cases h : scope = id
  · rw [if_pos h, if_pos (congrArg ScopeId.key h)]
    rfl
  · rw [if_neg h, if_neg (mt ScopeId.key_injective h)]
    rfl

/-- A blank file holds nothing. -/
def parse? (text : String) : Option Document :=
  if text.toList.all Text.isBlank then some ∅
  else (Json.parse? text).bind (·.map? (·.map? Datum.toValue?))

def text (document : Document) : String :=
  Json.pretty (.object (document.toList.map fun (key, values) =>
    (key, .object (values.toList.map fun (name, value) => (name, value.toJson)))))

end Document

inductive Access where
  | persist (scope : ScopeId) (name : String) (value : Value)
  | load (scope : ScopeId)

end LiveSheet.Store
