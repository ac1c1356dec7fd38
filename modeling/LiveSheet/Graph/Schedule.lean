import LiveSheet.Graph

/-!
The order of evaluation: what a variable reads comes before it. The walk is depth first,
from the variables in the order of their declaration to what they read in the order of
names. An edge that leads back to a variable on the way is broken.
-/

namespace LiveSheet

/-- An edge of a cycle that was given up: `source` reads `target` before it is evaluated. -/
structure BrokenEdge where
  source : String
  target : String
  deriving DecidableEq, Repr

def BrokenEdge.text (e : BrokenEdge) : String := e.source ++ " -> " ++ e.target

structure Schedule where
  order : List String
  brokenEdges : List BrokenEdge
  deriving DecidableEq, Repr

namespace Schedule

def empty : Schedule := ⟨[], []⟩

def finish (s : Schedule) (name : String) : Schedule := { s with order := s.order ++ [name] }

def breakEdge (s : Schedule) (source target : String) : Schedule :=
  { s with brokenEdges := s.brokenEdges ++ [⟨source, target⟩] }

end Schedule

/-- How far the walk got with a variable. -/
inductive Mark where
  | visiting
  | done
  deriving DecidableEq

structure Traversal where
  marks : NameMap Mark
  schedule : Schedule

namespace Traversal

def start : Traversal := ⟨∅, .empty⟩

def enter (t : Traversal) (name : String) : Traversal := { t with marks := t.marks.insert name .visiting }

def leave (t : Traversal) (name : String) : Traversal := ⟨t.marks.insert name .done, t.schedule.finish name⟩

def breakEdge (t : Traversal) (source target : String) : Traversal :=
  { t with schedule := t.schedule.breakEdge source target }

mutual

/-- Schedules a variable after what it reads. The variables on the way to it are marked and
distinct, so their number bounds how deep the walk goes. -/
def visit (next : String → List String) : Nat → String → Traversal → Traversal
  | 0, _, t => t
  | depth + 1, name, t => (visitAll next depth name (next name) (t.enter name)).leave name

/-- Goes through what a variable reads: what is done is passed over, and what is still being
visited breaks the edge. -/
def visitAll (next : String → List String) : Nat → String → List String → Traversal → Traversal
  | _, _, [], t => t
  | depth, name, d :: ds, t =>
    let t := match t.marks[d]? with
      | some .done => t
      | some .visiting => t.breakEdge name d
      | none => visit next depth d t
    visitAll next depth name ds t

end

def visitRoots (next : String → List String) (depth : Nat) (roots : List String) (t : Traversal) : Traversal :=
  roots.foldl (fun t name => if t.marks.contains name then t else visit next depth name t) t

end Traversal

def Schedule.ofGraph (g : Graph) (only : Option NameSet) : Schedule :=
  let isWorking := match only with
    | none => fun _ => true
    | some names => (g.forwardClosure names).contains
  (Traversal.visitRoots (fun name => (g.dependencies name).filter isWorking) g.names.length
    (g.names.filter isWorking) .start).schedule

end LiveSheet
