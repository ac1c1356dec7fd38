import LiveSheet.Await.Registry
import LiveSheet.Store

/-!
What expressions and scripts act on beyond the variables of their scope: the integrations and
the state of the host behind them, the store, and the record of what happened.
-/

namespace LiveSheet

inductive Event.Kind where
  | modified
  | resolved
  deriving DecidableEq, Repr

structure Event where
  kind : Event.Kind
  scope : ScopeId
  name : String
  value : Value
  deriving Repr

structure Call where
  owner : String
  operation : String
  args : List Value
  origin : Origin
  deriving Repr

structure World (σ : Type) where
  registry : Await.Registry σ
  host : σ
  store : Store
  /-- The calls so far, the latest first. -/
  calls : List Call
  /-- The events so far, the latest first. -/
  events : List Event

namespace World

variable {σ : Type}

def start (host : σ) (store : Store) : World σ := ⟨.empty, host, store, [], []⟩

def integrations (w : World σ) : IntegrationSet σ := w.registry.integrations

def report (w : World σ) (kind : Event.Kind) (scope : ScopeId) (name : String) (value : Value) :
    World σ :=
  { w with events := ⟨kind, scope, name, value⟩ :: w.events }

def note (w : World σ) (access : Store.Access) : World σ := { w with store := w.store.note access }

def sequence (w : World σ) (mode : Await.Mode) (text : String) : String × World σ :=
  let (sequenced, registry) := w.registry.sequence mode text
  (sequenced, { w with registry })

def invoked (w : World σ) (text : String) : NameSet × World σ :=
  let (names, registry) := w.registry.invoked text
  (names, { w with registry })

/-- Applies an operation, which may change the state of the host, and records the call. A
failure counts as one of the integration, unless it says which it is of. -/
def perform (w : World σ) (owner name : String) (op : Operation σ) (args : List Value) :
    Except SheetError Value × World σ :=
  let (result, host) := op.run args w.host
  let result := result.mapError fun
    | .integration owner name message => .integration owner name message
    | other => .integration owner name other.message
  (result, { w with host := host, calls := ⟨owner, name, args, op.origin⟩ :: w.calls })

end World

end LiveSheet
