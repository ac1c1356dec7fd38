import LiveSheet.Names
import LiveSheet.Value

/-!
Data as files hold it, whatever the format. A well formed file may hold what is no value, so
that fails where something is made of it, and does no harm where nothing is.
-/

namespace LiveSheet

inductive Datum where
  | null
  | bool (b : Bool)
  | number (n : Float)
  | string (s : String)
  /-- A date, a time of day or both, as its canonical text. -/
  | date (text : String)
  | array (items : List Datum)
  | table (entries : List (String × Datum))
  /-- Data without a meaning: a number out of range, a text that cannot be decoded, or brackets
  that nest too deep. -/
  | invalid
  deriving Inhabited

namespace Datum

mutual

def toValue? : Datum → Option Value
  | null => some .null
  | bool b => some (.bool b)
  | number n => some (.number n)
  | string s => some (.string s)
  | array items => (toValues? items).map .array
  | date _ | table _ | invalid => none

def toValues? : List Datum → Option (List Value)
  | [] => some []
  | d :: ds =>
    match d.toValue?, toValues? ds with
    | some v, some vs => some (v :: vs)
    | _, _ => none

end

def bool? : Datum → Option Bool
  | bool b => some b
  | _ => none

def number? : Datum → Option Float
  | number n => some n
  | _ => none

def string? : Datum → Option String
  | string s => some s
  | _ => none

def items? : Datum → Option (List Datum)
  | array items => some items
  | _ => none

/-- The key of the text of a date where a table is wanted. -/
def dateKey : String := "$__toml_private_datetime"

def entries? : Datum → Option (List (String × Datum))
  | table entries => some entries
  | date text => some [(dateKey, string text)]
  | _ => none

/-- The entries of a table, each made into something. Of entries of one name the last counts,
but all have to be right. -/
def map? {α : Type} (f : Datum → Option α) (d : Datum) : Option (NameMap α) :=
  d.entries?.bind fun entries => (entries.mapM fun e => (f e.2).map (e.1, ·)).map NameMap.ofEntries

end Datum

end LiveSheet
