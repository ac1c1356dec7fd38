import LiveSheet.Names
import LiveSheet.Error
import LiveSheet.Value.Text

/-!
Integrations: named groups of operations that expressions can call. An operation works on
the state of the host, of type `σ`; it is immediate, or deferred, and then its call has to
be awaited. The set of integrations counts its changes.
-/

namespace LiveSheet

inductive Origin where
  | table
  | host
  deriving DecidableEq, Repr

structure Operation (σ : Type) where
  deferred : Bool
  origin : Origin
  run : List Value → σ → Except SheetError Value × σ

structure Integration (σ : Type) where
  name : String
  operations : NameMap (Operation σ)

namespace Integration

variable {σ : Type}

def tableValue (name : String) (values : NameMap Value) (args : List Value) : Except SheetError Value :=
  let key := (args.head?.map Value.display).getD ""
  match values[key]? with
  | some v => .ok v
  | none => .error (.integration name "get" ("unknown key '" ++ key ++ "'"))

def table (name : String) (deferred : Bool) (values : NameMap Value) : Integration σ where
  name := name
  operations := NameMap.ofEntries [
    ("get", ⟨deferred, .table, fun args s => (tableValue name values args, s)⟩),
    ("keys", ⟨deferred, .table, fun _ s => (.ok (.array (values.keys.map .string)), s)⟩)]

end Integration

/-- The registered integrations, and how often the set has changed. -/
structure IntegrationSet (σ : Type) where
  byName : NameMap (Integration σ)
  version : Nat

namespace IntegrationSet

variable {σ : Type}

def empty : IntegrationSet σ := ⟨∅, 0⟩

def get? (set : IntegrationSet σ) (name : String) : Option (Integration σ) := set.byName[name]?

def contains (set : IntegrationSet σ) (name : String) : Bool := set.byName.contains name

def namespaces (set : IntegrationSet σ) : List String := set.byName.keys

def register (set : IntegrationSet σ) (integration : Integration σ) : IntegrationSet σ :=
  ⟨set.byName.insert integration.name integration, set.version + 1⟩

/-- Takes out the integration of a name. The set has only changed if there was one. -/
def remove (set : IntegrationSet σ) (name : String) : IntegrationSet σ :=
  if set.contains name then ⟨set.byName.erase name, set.version + 1⟩ else set

/-- Takes out all integrations. The set has only changed if there were any. -/
def clear (set : IntegrationSet σ) : IntegrationSet σ :=
  if set.byName.isEmpty then set else ⟨∅, set.version + 1⟩

def deferredCalls (set : IntegrationSet σ) : List String :=
  set.byName.toList.flatMap fun (_, integration) =>
    (integration.operations.toList.filter fun (_, op) => op.deferred).map fun (name, _) =>
      integration.name ++ "." ++ name

end IntegrationSet

end LiveSheet
