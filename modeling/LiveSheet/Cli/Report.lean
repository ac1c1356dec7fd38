import LiveSheet.Engine.Run
import LiveSheet.Json.Printer
import LiveSheet.Number.Fixed

/-!
What the command line prints about passes, commands, graphs and checks, as lines of text or
as JSON.
-/

namespace LiveSheet.Cli

variable {σ : Type}

def brokenLine (e : BrokenEdge) : String := "⚠️  Cycle broken at " ++ e.text

def diagnosticText (d : Diagnostic) : String := d.name ++ ": " ++ d.message

def current (e : Engine σ) (id : ScopeId) (name : String) : Value := (e.value? id name).getD .null

def sortedObject (members : List (String × Json)) : Json := .object (NameMap.ofEntries members).toList

def scopeValues (e : Engine σ) (id : ScopeId) : List (String × Value) :=
  (e.scopeOrEmpty id).definitions.names.map fun name => (name, current e id name)

def resolutionLines (e : Engine σ) (id : ScopeId) (r : Resolution) (elapsed : String) : List String :=
  let values := scopeValues e id
  ["📋 " ++ id.text ++ " (" ++ toString values.length ++ " variables, " ++ elapsed ++ "ms)"]
    ++ values.map (fun (name, v) => "   " ++ name ++ " = " ++ v.canonical)
    ++ r.brokenEdges.map brokenLine
    ++ r.diagnostics.map fun d => "❌ " ++ diagnosticText d

def resolutionJson (e : Engine σ) (id : ScopeId) (r : Resolution) : Json :=
  sortedObject [
    ("scope", .string id.key),
    ("values", sortedObject ((scopeValues e id).map fun (name, v) => (name, v.toJson))),
    ("order", Json.strings r.order),
    ("broken_edges", .array (r.brokenEdges.map fun edge =>
      .object [("from", .string edge.source), ("to", .string edge.target)])),
    ("diagnostics", .array (r.diagnostics.map fun d =>
      .object [("message", .string d.message), ("variable", .string d.name)]))]

def outcomeLines (e : Engine σ) (id : ScopeId) (o : Outcome) : List String :=
  let change := fun mark name => "   " ++ mark ++ name ++ " = " ++ (current e id name).canonical
  let ending := match o.result with
    | .error fault => ["❌ Command failed in " ++ id.text ++ ": " ++ fault.message]
    | .ok v =>
      ("✅ Command completed in " ++ id.text) :: if v.isNull then [] else ["   Result: " ++ v.canonical]
  ending ++ o.modified.names.map (change "✏️  ")
    ++ (o.recomputed.filter fun name => !o.modified.contains name).map (change "🔄 ")
    ++ o.refreshed.map (fun (page, name) =>
      "   🔄 " ++ page.text ++ " " ++ name ++ " = " ++ (current e page name).canonical)
    ++ o.diagnostics.map fun d => "   ⚠️  " ++ diagnosticText d

def outcomeJson (e : Engine σ) (id : ScopeId) (o : Outcome) : Json :=
  sortedObject [
    ("scope", .string id.key),
    ("value", match o.result with | .ok v => v.toJson | .error _ => .null),
    ("error", match o.result with | .ok _ => .null | .error fault => .string fault.message),
    ("modified", Json.strings o.modified.names),
    ("recomputed", sortedObject (o.recomputed.map fun name => (name, (current e id name).toJson))),
    ("refreshed", .array (o.refreshed.map fun (page, name) => sortedObject [
      ("scope", .string page.key), ("name", .string name), ("value", (current e page name).toJson)])),
    ("diagnostics", .array (o.diagnostics.map fun d => .string (diagnosticText d)))]

def listed (mark : String) (names : List String) (closing : String) : String :=
  if names.isEmpty then "" else mark ++ String.intercalate ", " names ++ closing

def graphLines (id : ScopeId) (g : Graph) (s : Schedule) : List String :=
  ["🔗 Dependency graph for " ++ id.text ++ " (" ++ toString g.nodes.length ++ " variables, "
    ++ toString g.edgeCount ++ " edges)"]
    ++ g.nodes.map (fun n =>
      "   " ++ n.name ++ listed " <- " n.dependencies "" ++ listed " [uses " n.namespaces "]")
    ++ ["", "📋 Evaluation order:", "   " ++ String.intercalate " -> " s.order]
    ++ s.brokenEdges.map brokenLine

def summaryLines (total failed : Nat) : List String :=
  ["", "📊 Check Summary:", "   Total files: " ++ toString total,
    "   Files with errors: " ++ toString failed]
    ++ if total = 0 then []
      else
        let rate := Float.ofNat (total - failed) / Float.ofNat total * 100
        ["   Success rate: " ++ Number.fixed 1 rate ++ "%"]

end LiveSheet.Cli
