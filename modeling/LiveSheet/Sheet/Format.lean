import LiveSheet.Json.Printer
import LiveSheet.Json.Reader
import LiveSheet.Path
import LiveSheet.Sheet
import LiveSheet.Toml.Reader

/-!
Sheet files. A sheet is a TOML or a JSON document, as the extension of its file says. A
record stands there as a table of its fields, of which unknown ones are passed over, or as
an array of them in order.
-/

namespace LiveSheet.Sheet

inductive Format where
  | toml
  | json
  deriving DecidableEq, Repr

def Format.text : Format → String
  | .toml => "TOML"
  | .json => "JSON"

def Format.ofPath (path : String) : Except SheetError Format :=
  match Path.extension? path with
  | some "toml" => .ok .toml
  | some "json" => .ok .json
  | _ => .error (.invalidFormat (.unknownExtension path))

abbrev Fields := List (String × Datum)

/-- Gives the fields of a record their names. A known field must not stand twice; of an array,
a JSON document may have no more items than fields. -/
def fields? (format : Format) (names : List String) : Datum → Option Fields
  | .array items => if format = .json ∧ names.length < items.length then none else some (names.zip items)
  | d => d.entries?.bind fun entries =>
    let known := entries.filter fun (name, _) => names.contains name
    if (known.map Prod.fst).Nodup then some known else none

def field? {α : Type} (fields : Fields) (name : String) (missing : Option α) (read : Datum → Option α) :
    Option α :=
  match fields.lookup name with
  | some d => read d
  | none => missing

def optional? {α : Type} (fields : Fields) (name : String) (read : Datum → Option α) : Option (Option α) :=
  field? fields name (some none) fun
    | .null => some none
    | d => (read d).map some

def list? {α : Type} (read : Datum → Option α) (d : Datum) : Option (List α) := d.items?.bind (·.mapM read)

def readEntry (format : Format) (d : Datum) : Option VariableEntry := do
  let fields ← fields? format ["name", "value", "expression", "min", "max"] d
  return {
    name := ← field? fields "name" none Datum.string?
    value := ← optional? fields "value" Datum.toValue?
    expression := ← optional? fields "expression" Datum.string?
    min := ← optional? fields "min" Datum.number?
    max := ← optional? fields "max" Datum.number? }

def readPage (format : Format) (d : Datum) : Option Page := do
  let fields ← fields? format ["variables", "commands", "labels"] d
  return {
    entries := ← field? fields "variables" (some []) (list? (readEntry format))
    commands := ← field? fields "commands" (some ∅) (Datum.map? Datum.string?)
    labels := ← field? fields "labels" (some ∅) (Datum.map? Datum.string?) }

def readTable (format : Format) (d : Datum) : Option Table := do
  let fields ← fields? format ["async", "values"] d
  return {
    deferred := ← field? fields "async" (some false) Datum.bool?
    values := ← field? fields "values" (some ∅) (Datum.map? Datum.toValue?) }

def ofDatum? (format : Format) (d : Datum) : Option Sheet := do
  let fields ← fields? format ["variables", "pages", "integrations"] d
  return {
    entries := ← field? fields "variables" (some []) (list? (readEntry format))
    pages := ← field? fields "pages" (some ∅) (Datum.map? (readPage format))
    tables := ← field? fields "integrations" (some ∅) (Datum.map? (readTable format)) }

def Format.data? (format : Format) (text : String) : Option Datum :=
  match format with
  | .toml => Toml.parse? text
  | .json => Json.parse? text

def parse (format : Format) (text : String) : Except SheetError Sheet :=
  match (format.data? text).bind (ofDatum? format) with
  | some s => .ok s
  | none => .error (.invalidFormat (.invalidSheet format.text))

def load {m : Type → Type} [Monad m] (read : String → ExceptT SheetError m String) (path : String) :
    ExceptT SheetError m Sheet := do
  let format ← ExceptT.mk (pure (Format.ofPath path))
  let text ← read path
  ExceptT.mk (pure (parse format text))

/-- A bound as documents hold it, always with a fraction. -/
def boundToJson (x : Float) : Json :=
  if x.isFinite then .number (Number.dataFile.write x) else .null

def entryToJson (e : VariableEntry) : Json :=
  .object ([("name", .string e.name)]
    ++ (e.value.map fun v => ("value", v.toJson)).toList
    ++ (e.expression.map fun t => ("expression", Json.string t)).toList
    ++ (e.min.map fun x => ("min", boundToJson x)).toList
    ++ (e.max.map fun x => ("max", boundToJson x)).toList)

def mapToJson {α : Type} (f : α → Json) (m : NameMap α) : Json := .object (m.toList.map fun (k, v) => (k, f v))

def toJson (s : Sheet) : Json :=
  let listed := fun entries => ("variables", Json.array (entries.map entryToJson))
  .object [listed s.entries,
    ("pages", mapToJson (fun (p : Page) => .object [listed p.entries,
      ("commands", mapToJson .string p.commands), ("labels", mapToJson .string p.labels)]) s.pages),
    ("integrations", mapToJson (fun (t : Table) => .object [("async", .bool t.deferred),
      ("values", mapToJson Value.toJson t.values)]) s.tables)]

end LiveSheet.Sheet
