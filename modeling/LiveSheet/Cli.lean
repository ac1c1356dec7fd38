import LiveSheet.Cli.Arguments
import LiveSheet.Cli.Report
import LiveSheet.Cli.Settings
import LiveSheet.Engine.Reload
import LiveSheet.FileFault

/-!
The command line: resolving a sheet, running a command, showing a graph and checking files.
It is written for any surroundings that can read and write files and print.
-/

namespace LiveSheet.Cli

structure Surroundings (m : Type → Type) where
  read : String → m (Except FileFault String)
  write : String → String → m Unit
  isDirectory : String → m Bool
  files : String → Bool → m (List String)
  print : String → m Unit
  complain : String → m Unit
  elapsed : m String

variable {m : Type → Type} [Monad m]

abbrev Action (m : Type → Type) := ExceptT SheetError m

def ofExcept {α : Type} (r : Except SheetError α) : Action m α := ExceptT.mk (pure r)

def printLines (s : Surroundings m) (lines : List String) : Action m Unit :=
  lines.forM fun line => ExceptT.lift (s.print line)

def readExisting (s : Surroundings m) (path : String) : Action m String := do
  match ← ExceptT.lift (s.read path) with
  | .ok text => return text
  | .error fault => throw (if fault.isMissing then .fileNotFound path else .io fault.message)

def readSettings (s : Surroundings m) (path : String) : Action m Settings := do
  match ← ExceptT.lift (s.read path) with
  | .ok text => ofExcept (Settings.ofFile path text)
  | .error fault => throw (.fileNotFound ("Settings file " ++ path ++ ": " ++ fault.message))

/-- The store of a state file. One that cannot be read keeps nothing. -/
def openStore (s : Surroundings m) (path : Option String) : Action m Store := do
  match path with
  | none => return .none
  | some path =>
    match ← ExceptT.lift (s.read path) with
    | .ok text => return .file path (some text)
    | .error fault => return if fault.isMissing then .file path none else .none

def saveStore (s : Surroundings m) (before after : Store) : Action m Unit :=
  match before, after with
  | .file _ old, .file path (some new) => if old = some new then pure () else ExceptT.lift (s.write path new)
  | _, _ => pure ()

def loadEngine (s : Surroundings m) (input : String) (store : Store) : Action m (Engine Unit) := do
  let sheet ← Sheet.load (readExisting s) input
  ofExcept (Engine.ofSheet () store sheet)

def scopeOf (page : Option String) : ScopeId := (page.map ScopeId.page).getD .global

def chooseFormat (settings : Settings) (format : Option OutputFormat) : Except SheetError OutputFormat :=
  match format, settings.format with
  | some format, _ => .ok format
  | none, none => .ok .text
  | none, some "text" => .ok .text
  | none, some "json" => .ok .json
  | none, some other => .error (.invalidFormat (.unknownOutput other))

def resolve (s : Surroundings m) (input : String) (id : ScopeId) (format : OutputFormat)
    (state : Option String) : Action m Unit := do
  let store ← openStore s state
  let e ← loadEngine s input store
  let (resolution, e) ← ofExcept (e.load id)
  match format with
  | .json => printLines s [(resolutionJson e id resolution).pretty]
  | .text => printLines s (resolutionLines e id resolution (← ExceptT.lift s.elapsed))

def run (s : Surroundings m) (input : String) (id : ScopeId) (format : OutputFormat)
    (state command script : Option String) : Action m Unit := do
  let store ← openStore s state
  let e ← loadEngine s input store
  let (_, e) ← ofExcept (e.load id)
  let (outcome, e) ← match command, script with
    | some name, _ => ofExcept (e.runNamed id name)
    | none, some script => ofExcept (e.run id script)
    | none, none => throw (.invalidFormat .noScript)
  saveStore s store e.world.store
  match format with
  | .json => printLines s [(outcomeJson e id outcome).pretty]
  | .text => printLines s (outcomeLines e id outcome)
  match outcome.result with
  | .ok _ => return
  | .error fault => throw fault

def showGraph (s : Surroundings m) (input : String) (id : ScopeId) : Action m Unit := do
  let e ← loadEngine s input .none
  let g ← ofExcept (e.graph id)
  let schedule ← ofExcept (e.schedule id)
  printLines s (graphLines id g schedule)

def checkFile (s : Surroundings m) (path : String) : Action m Unit := do
  printLines s ["🔍 Checking " ++ path]
  match ← ExceptT.lift (ExceptT.run (loadEngine s path .none)) with
  | .error fault => do
    printLines s ["❌ " ++ path ++ " - " ++ fault.message]
    throw fault
  | .ok e =>
    let failures := e.check
    if failures.isEmpty then printLines s ["✅ " ++ path ++ " - No issues found"]
    else
      printLines s (failures.map fun (place, fault) =>
        "❌ " ++ path ++ " - " ++ place ++ ": " ++ fault.message)
      throw (.invalidFormat (.failedExpressions failures.length))

def checkFiles (s : Surroundings m) : List String → Action m Nat
  | [] => return 0
  | path :: paths => do
    let failed := match ← ExceptT.lift (ExceptT.run (checkFile s path)) with
      | .ok _ => 0
      | .error _ => 1
    return failed + (← checkFiles s paths)

def isSheetFile (path : String) : Bool :=
  match Path.extension? path with
  | some "toml" => true
  | some "json" => true
  | _ => false

def checkDirectory (s : Surroundings m) (path : String) (recursive : Bool) : Action m Unit := do
  let sheets := (← ExceptT.lift (s.files path recursive)).filter isSheetFile
  let failed ← checkFiles s sheets
  printLines s (summaryLines sheets.length failed)
  if failed = 0 then return else throw (.invalidFormat (.failedFiles failed))

def perform (s : Surroundings m) (settings : Settings) : Option Subcommand → Action m Unit
  | none => printLines s ["No subcommand specified. Use --help for usage information."]
  | some (.resolve input page state format) => do
    let format ← ofExcept (chooseFormat settings format)
    resolve s input (scopeOf (page.or settings.defaultPage)) format (state.or settings.stateFile)
  | some (.run input page state format command script) => do
    let format ← ofExcept (chooseFormat settings format)
    run s input (scopeOf (page.or settings.defaultPage)) format (state.or settings.stateFile) command script
  | some (.graph input page) => showGraph s input (scopeOf (page.or settings.defaultPage))
  | some (.check input recursive) => do
    if ← ExceptT.lift (s.isDirectory input) then checkDirectory s input recursive else checkFile s input

def fulfil (s : Surroundings m) (request : Request) : Action m Unit := do
  let settings ← match request.settings with
    | none => pure Settings.empty
    | some path => readSettings s path
  perform s settings request.subcommand

def failureLine : SheetError → String
  | .io message => "IO Error: " ++ message
  | fault => "Error: " ++ fault.message

def execute (s : Surroundings m) (version usage : String) (args : List String) : m Nat := do
  match Request.ofArguments args with
  | .error .misuse => do
    s.complain usage
    return 2
  | .error .help => do
    s.print usage
    return 0
  | .error .version => do
    s.print version
    return 0
  | .ok request =>
    match ← ExceptT.run (fulfil s request) with
    | .ok _ => return 0
    | .error fault => do
      s.complain (failureLine fault)
      return 1

end LiveSheet.Cli
