import LiveSheet.Cli

/-!
The program: the command line over the files, the output and the clock of the machine.
-/

namespace LiveSheet.Main

open Cli

def version : String := "varex 0.1.0"

def usage : String := "Usage: varex [OPTIONS] [COMMAND]

Commands:
  resolve  Resolve every variable of a sheet and print the values
  run      Run a command script against a scope and show what changed
  graph    Show the dependency graph and evaluation order of a scope
  check    Check sheet files for invalid definitions and syntax errors

Options:
  -c, --config <FILE>  Settings file path (.toml or .json)
  -v, --verbose        Increase verbosity (can be used multiple times)
  -h, --help           Print help
  -V, --version        Print version"

/-- The fault behind a failure. The number of the reason may come with its sign changed. -/
def faultOf : IO.Error → FileFault
  | .noFileOrDirectory .. => .notFound
  | .inappropriateType _ reason _ =>
    if reason = 21 ∨ reason = -21 then .isDirectory else .notDirectory
  | failure => .other (toString failure)

def read (path : String) : IO (Except FileFault String) := do
  try
    return .ok (← IO.FS.readFile path)
  catch failure =>
    return .error (faultOf failure)

def write (path text : String) : IO Unit := do
  try
    match Path.parent? path with
    | some above => IO.FS.createDirAll above
    | none => pure ()
    IO.FS.writeFile path text
  catch _ => pure ()

def isDirectory (path : String) : IO Bool := do
  try
    return (← (← IO.FS.realPath path).metadata).type == .dir
  catch _ => return false

def filesBelow (depth : Nat) (directory : String) : IO (List String) := do
  let mut files := []
  for entry in ← (← IO.FS.realPath directory).readDir do
    let path := Path.child directory entry.fileName
    match (← entry.path.metadata).type, depth with
    | .file, _ => files := files ++ [path]
    | .dir, depth + 1 => files := files ++ (← filesBelow depth path)
    | _, _ => pure ()
  return files

def deepest : Nat := 4096

def elapsed (start : Nat) : IO String := do
  let now ← IO.monoNanosNow
  return Number.fixed 2 (Float.ofNat (now - start) / 1000000)

def surroundings (start : Nat) : Surroundings IO where
  read := read
  write := write
  isDirectory := isDirectory
  files directory recursive := filesBelow (if recursive then deepest else 0) directory
  print := IO.println
  complain := IO.eprintln
  elapsed := elapsed start

end LiveSheet.Main

def main (args : List String) : IO UInt32 := do
  let start ← IO.monoNanosNow
  return (← LiveSheet.Cli.execute (LiveSheet.Main.surroundings start) LiveSheet.Main.version
    LiveSheet.Main.usage args).toUInt32
