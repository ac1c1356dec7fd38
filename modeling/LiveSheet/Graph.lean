import LiveSheet.Graph.Adjacency
import LiveSheet.Reference
import LiveSheet.Variable

/-!
Which variables read which. The edges are listed twice, by the variable that reads and by the
one that is read; both lists grow as the variables are gone through in the order of their
declaration, so a variable can have readers before its own turn comes.
-/

namespace LiveSheet

structure Graph where
  /-- The variables in the order of their declaration. -/
  names : List String
  forward : Adjacency
  reverse : Adjacency
  /-- The integrations that an expression refers to, where there are any. -/
  namespaceRefs : Adjacency
  deriving DecidableEq

structure Node where
  name : String
  dependencies : List String
  namespaces : List String

namespace Graph

def empty : Graph := ⟨[], ∅, ∅, ∅⟩

def addNode (g : Graph) (name : String) : Graph :=
  { g with names := g.names ++ [name], forward := g.forward.addNode name, reverse := g.reverse.addNode name }

/-- The edge from a variable to one that it reads, unless this is the variable itself. -/
def addEdge (name : String) (g : Graph) (dependency : String) : Graph :=
  if dependency = name then g
  else { g with forward := g.forward.addEdge name dependency, reverse := g.reverse.addEdge dependency name }

def addNamespaces (g : Graph) (name : String) (namespaces : NameSet) : Graph :=
  if namespaces.isEmpty then g else { g with namespaceRefs := g.namespaceRefs.insert name namespaces }

def addVariable (declared namespaces : NameSet) (g : Graph) (v : Variable) : Graph :=
  let g := g.addNode v.name
  match v.expression? with
  | none => g
  | some text =>
    let refs := References.scan text declared namespaces
    (refs.reads.names.foldl (addEdge v.name) g).addNamespaces v.name refs.namespaces

def build (definitions : VariableSet) (namespaces : NameSet) : Graph :=
  definitions.declared.foldl (addVariable definitions.domain namespaces) empty

def contains (g : Graph) (name : String) : Bool := g.forward.contains name

def dependencies (g : Graph) (name : String) : List String := (g.forward.targets name).names

def dependents (g : Graph) (name : String) : List String := (g.reverse.targets name).names

def edgeCount (g : Graph) : Nat := g.forward.edgeCount

def namespacesOf (g : Graph) (name : String) : List String := (g.namespaceRefs.targets name).names

def nodes (g : Graph) : List Node := g.names.map fun name => ⟨name, g.dependencies name, g.namespacesOf name⟩

def referencing (g : Graph) (namespaces : NameSet) : NameSet :=
  NameSet.ofNames ((g.namespaceRefs.toList.filter fun entry => entry.2.names.any namespaces.contains).map Prod.fst)

/-- The nodes among `names` and everything they read, directly or not. -/
def forwardClosure (g : Graph) (names : NameSet) : NameSet := g.forward.closure names

/-- The nodes among `names` and everything that reads them, directly or not. -/
def reverseClosure (g : Graph) (names : NameSet) : NameSet := g.reverse.closure names

end Graph

end LiveSheet
