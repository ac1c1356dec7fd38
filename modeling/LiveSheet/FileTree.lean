import LiveSheet.FileFault
import LiveSheet.Path

/-!
Files and directories held in memory, below a root directory. A path is walked name by name:
every name but the last has to lead to a directory.
-/

namespace LiveSheet

inductive FileEntry where
  | file (text : String)
  | directory
  deriving DecidableEq, Repr

structure FileTree where
  root : String
  /-- The entries below the root, by the names that lead to them. -/
  entries : List (List (List Char) × FileEntry)

namespace FileTree

def empty (root : String) : FileTree := ⟨root, []⟩

def entryAt (t : FileTree) (names : List (List Char)) : Option FileEntry :=
  if names = [] then some .directory else t.entries.lookup names

/-- Goes on by one name, which has to stand in a directory. Nothing is found above the root. -/
def enter (t : FileTree) (names : List (List Char)) (p : List Char) :
    Except FileFault (List (List Char)) :=
  match t.entryAt names with
  | none => .error .notFound
  | some (.file _) => .error .notDirectory
  | some .directory =>
    if p = [] ∨ p = ['.'] then .ok names
    else if p = ['.', '.'] then (if names = [] then .error .notFound else .ok names.dropLast)
    else .ok (names ++ [p])

def steps (t : FileTree) (path : String) : Except FileFault (List (List Char)) :=
  if path.startsWith t.root then .ok ((path.toList.drop t.root.length).splitOn '/')
  else .error .notFound

def locate (t : FileTree) (path : String) : Except FileFault (List (List Char)) := do
  (← t.steps path).foldlM t.enter []

def read (t : FileTree) (path : String) : Except FileFault String := do
  match t.entryAt (← t.locate path) with
  | none => .error .notFound
  | some .directory => .error .isDirectory
  | some (.file text) => .ok text

def isDirectory (t : FileTree) (path : String) : Bool :=
  match t.locate path with
  | .ok names => t.entryAt names == some .directory
  | .error _ => false

def put (t : FileTree) (names : List (List Char)) (entry : FileEntry) : FileTree :=
  { t with entries := (names, entry) :: t.entries.filter (·.1 ≠ names) }

def enterNew : FileTree × List (List Char) → List Char → Except FileFault (FileTree × List (List Char))
  | (t, above), p => do
    let names ← t.enter above p
    return (if (t.entryAt names).isNone then t.put names .directory else t, names)

def write (t : FileTree) (path text : String) : Except FileFault FileTree := do
  let steps ← t.steps path
  let name := steps.getLast?.getD []
  let (t, above) ← steps.dropLast.foldlM enterNew (t, [])
  let names ← t.enter above name
  if name ∈ [[], ['.'], ['.', '.']] ∨ t.entryAt names = some .directory then .error .isDirectory
  else return t.put names (.file text)

/-- The path of a file below a directory. Only the directory's own files count, unless those
of the directories below it are asked for. -/
def pathBelow? (directory : String) (above : List (List Char)) (recursive : Bool) :
    List (List Char) × FileEntry → Option String
  | (_, .directory) => none
  | (names, .file _) =>
    let below := names.drop above.length
    if above.isPrefixOf names && (recursive || below.length == 1) then
      some (Path.child directory (String.intercalate "/" (below.map String.ofList)))
    else none

def filesBelow (t : FileTree) (directory : String) (recursive : Bool) : List String :=
  match t.locate directory with
  | .ok above => t.entries.filterMap (pathBelow? directory above recursive)
  | .error _ => []

end FileTree

end LiveSheet
