import LiveSheet.Datum

/-!
Tables of a TOML document while it is read. How a table came about decides what may still be
added to it, so that nothing is ever defined twice.
-/

namespace LiveSheet.Toml

inductive Form where
  /-- By a header of its own. -/
  | declared
  /-- By a header of a table inside of it. -/
  | implied
  /-- By a dotted key. -/
  | dotted
  deriving DecidableEq, Repr

inductive Item where
  | value (d : Datum)
  | table (form : Form) (entries : List (String × Item))
  /-- The tables of an array, the latest first. -/
  | tables (elements : List (List (String × Item)))

abbrev Entries := List (String × Item)

namespace Entries

def put (key : String) (item : Item) : Entries → Entries
  | [] => [(key, item)]
  | (k, i) :: rest => if k = key then (key, item) :: rest else (k, i) :: put key item rest

/-- Changes the entries that a path of headers leads to. Tables on the way come into being;
an array of tables stands for its latest one. -/
def withHeader (f : Entries → Option Entries) : List String → Entries → Option Entries
  | [], entries => f entries
  | key :: path, entries =>
    match entries.lookup key with
    | none => (withHeader f path []).map fun inner => put key (.table .implied inner) entries
    | some (.table form inner) =>
      (withHeader f path inner).map fun inner => put key (.table form inner) entries
    | some (.tables (latest :: others)) =>
      (withHeader f path latest).map fun latest => put key (.tables (latest :: others)) entries
    | some (.tables []) => none
    | some (.value _) => none

/-- Adds a value under a dotted key. The last table on the way has to be one of other dotted
keys; those above it may also be implied or the latest of an array. -/
def insert (value : Datum) : List String → Entries → Option Entries
  | [], _ => none
  | [key], entries =>
    match entries.lookup key with
    | none => some (put key (.value value) entries)
    | some _ => none
  | key :: path, entries =>
    match entries.lookup key with
    | none => (insert value path []).map fun inner => put key (.table .dotted inner) entries
    | some (.table form inner) =>
      if form = .dotted ∨ (form = .implied ∧ 1 < path.length) then
        (insert value path inner).map fun inner => put key (.table form inner) entries
      else none
    | some (.tables (latest :: others)) =>
      if 1 < path.length then
        (insert value path latest).map fun latest => put key (.tables (latest :: others)) entries
      else none
    | some _ => none

/-- Declares the table of a header. One that was only implied so far becomes declared. -/
def declare (key : String) (entries : Entries) : Option Entries :=
  match entries.lookup key with
  | none => some (put key (.table .declared []) entries)
  | some (.table .implied inner) => some (put key (.table .declared inner) entries)
  | some _ => none

def extend (key : String) (entries : Entries) : Option Entries :=
  match entries.lookup key with
  | none => some (put key (.tables [[]]) entries)
  | some (.tables elements) => some (put key (.tables ([] :: elements)) entries)
  | some _ => none

end Entries

mutual

def Item.datum : Item → Datum
  | .value d => d
  | .table _ entries => .table (entriesData entries)
  | .tables elements => .array (elementsData elements).reverse

def entriesData : List (String × Item) → List (String × Datum)
  | [] => []
  | (key, item) :: rest => (key, item.datum) :: entriesData rest

def elementsData : List (List (String × Item)) → List Datum
  | [] => []
  | entries :: rest => .table (entriesData entries) :: elementsData rest

end

end LiveSheet.Toml
