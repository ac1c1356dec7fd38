import LiveSheet.Error
import LiveSheet.Store.State

/-!
Where written values are kept for the next session: nowhere, in memory, in a state file, which
stands here as its text, or in a store that the host brings along.
-/

namespace LiveSheet

inductive Store where
  | none
  | memory (state : Store.State)
  | file (path : String) (text : Option String)
  /-- What the host answers, which may depend on all that was asked before; where it keeps a
  value, the answer does not count. -/
  | host (answer : List Store.Access → Store.Access → Except SheetError (NameMap Value)) (asked : List Store.Access)

namespace Store

/-- The state a file holds; one without a file holds nothing. -/
def readFile (path : String) (text : Option String) : Except SheetError Document :=
  match text with
  | .none => .ok ∅
  | some text =>
    match Document.parse? text with
    | some document => .ok document
    | .none => .error (.invalidState path)

/-- The store once it was asked something. Only the host takes note of that. -/
def note (store : Store) (access : Access) : Store :=
  match store with
  | host answer asked => host answer (asked ++ [access])
  | store => store

/-- Keeps a value: the answer, and the store as it is left. A state file that cannot be read stays
as it is. -/
def persistInPlace (store : Store) (scope : ScopeId) (name : String) (value : Value) : Except SheetError Unit × Store :=
  match store with
  | none => (.ok (), none)
  | memory state => (.ok (), memory (state.write scope name value))
  | file path text =>
    match readFile path text with
    | .ok document => (.ok (), file path (some (document.write scope name value).text))
    | .error fault => (.error fault, file path text)
  | host answer asked =>
    let access := Access.persist scope name value
    ((answer asked access).map fun _ => (), (host answer asked).note access)

def persist (store : Store) (scope : ScopeId) (name : String) (value : Value) : Except SheetError Store :=
  let (answer, store) := store.persistInPlace scope name value
  answer.map fun _ => store

def load (store : Store) (scope : ScopeId) : Except SheetError (NameMap Value) :=
  match store with
  | none => .ok ∅
  | memory state => .ok (state.values scope)
  | file path text => (readFile path text).map (·.values scope)
  | host answer asked => answer asked (.load scope)

def keep (store : Store) (scope : ScopeId) (name : String) (value : Value) : Store :=
  (store.persistInPlace scope name value).2

end Store

end LiveSheet
