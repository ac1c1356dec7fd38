import LiveSheet.Integration
import LiveSheet.Scope
import LiveSheet.Variable

/-!
Sheets: the variables of the global scope, the pages with their variables, commands and
labels, and the look-up tables.
-/

namespace LiveSheet

/-- A variable as a sheet writes it down, with a value, an expression, both or neither. -/
structure VariableEntry where
  name : String
  value : Option Value
  expression : Option String
  min : Option Float
  max : Option Float

structure Page where
  entries : List VariableEntry
  commands : NameMap String
  labels : NameMap String

structure Table where
  deferred : Bool
  values : NameMap Value

structure Sheet where
  entries : List VariableEntry
  pages : NameMap Page
  tables : NameMap Table

/-- The variable of an entry, which has to have either a value or an expression. -/
def VariableEntry.variable? (e : VariableEntry) : Except SheetError Variable :=
  match e.value, e.expression with
  | some v, none => .ok ⟨e.name, .literal v, e.min, e.max⟩
  | none, some text => .ok ⟨e.name, .expression text, e.min, e.max⟩
  | some _, some _ => .error (.definition e.name .valueAndExpression)
  | none, none => .error (.definition e.name .noRule)

def VariableEntry.declareAll (entries : List VariableEntry) : Except SheetError VariableSet :=
  entries.foldlM (fun set e => e.variable?.bind set.insert) .empty

namespace Sheet

def globalDefinitions (s : Sheet) : Except SheetError VariableSet := VariableEntry.declareAll s.entries

def pageDefinitions (s : Sheet) (name : String) : Except SheetError VariableSet :=
  match s.pages[name]? with
  | some page => VariableEntry.declareAll page.entries
  | none => .error (.unknownScope (ScopeId.page name).text)

def integrations {σ : Type} (s : Sheet) : List (Integration σ) :=
  s.tables.toList.map fun (name, t) => .table name t.deferred t.values

def expressionsOf (entries : List VariableEntry) : List (String × String) :=
  entries.filterMap fun e => e.expression.map (e.name, ·)

def scriptsOf (commands : NameMap String) : List (String × String) :=
  commands.toList.map fun (name, script) => ("commands." ++ name, script)

def expressions (s : Sheet) : List (String × String) :=
  expressionsOf s.entries ++ s.pages.toList.flatMap fun (name, page) =>
    (expressionsOf page.entries ++ scriptsOf page.commands).map fun (place, text) =>
      (name ++ "." ++ place, text)

end Sheet

end LiveSheet
