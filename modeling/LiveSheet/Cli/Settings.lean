import LiveSheet.Sheet.Format

/-!
Settings files: what stands for options that are not given.
-/

namespace LiveSheet.Cli

structure Settings where
  stateFile : Option String
  defaultPage : Option String
  format : Option String

namespace Settings

def empty : Settings := ⟨none, none, none⟩

/-- The settings of a document. An array has to hold all of them. -/
def ofDatum? (format : Sheet.Format) (d : Datum) : Option Settings := do
  let names := ["state_file", "default_page", "format"]
  let fields ← Sheet.fields? format names d
  let complete := match d with
    | .array _ => fields.length == names.length
    | _ => true
  if complete then
    return {
      stateFile := ← Sheet.optional? fields "state_file" Datum.string?
      defaultPage := ← Sheet.optional? fields "default_page" Datum.string?
      format := ← Sheet.optional? fields "format" Datum.string? }
  else none

def parse (format : Sheet.Format) (text : String) : Except SheetError Settings :=
  match (format.data? text).bind (ofDatum? format) with
  | some s => .ok s
  | none => .error (.invalidFormat (.invalidSettings format.text))

def ofFile (path text : String) : Except SheetError Settings :=
  if path.endsWith ".json" then parse .json text
  else if path.endsWith ".toml" then parse .toml text
  else .error (.invalidFormat .unknownSettings)

end Settings

end LiveSheet.Cli
