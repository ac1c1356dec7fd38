import LiveSheet.Engine
import LiveSheet.Sheet

/-!
Loading a sheet into an engine. Its declarations replace those of the sheet before, and its
look-up tables replace the earlier tables; the integrations of the host stay. A sheet that
cannot be declared changes nothing.
-/

namespace LiveSheet.Engine

variable {σ : Type}

def pageState (page : Page) : Except SheetError ScopeState := do
  let definitions ← VariableEntry.declareAll page.entries
  return { ScopeState.empty with definitions, commands := page.commands, labels := page.labels }

def pageStates (sheet : Sheet) : Except SheetError (NameMap ScopeState) := do
  let states ← sheet.pages.toList.mapM fun (name, page) => (pageState page).map (name, ·)
  return NameMap.ofEntries states

def replaceTables (registry : Await.Registry σ) (earlier : NameSet) (sheet : Sheet) : Await.Registry σ :=
  let registry := earlier.names.foldl Await.Registry.remove registry
  (sheet.integrations.foldl Await.Registry.register registry).invalidate

/-- Replaces every scope by the declarations of a sheet. Their values are computed when the
scopes are loaded. -/
def reload (e : Engine σ) (sheet : Sheet) : Except SheetError (Engine σ) := do
  let definitions ← sheet.globalDefinitions
  let pages ← pageStates sheet
  return {
    world := { e.world with registry := replaceTables e.world.registry e.tables sheet }
    global := { ScopeState.empty with definitions }
    pages := pages
    tables := sheet.tables.domain }

def ofSheet (host : σ) (store : Store) (sheet : Sheet) : Except SheetError (Engine σ) :=
  (start host store).reload sheet

end LiveSheet.Engine
