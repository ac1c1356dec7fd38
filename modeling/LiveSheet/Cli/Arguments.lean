/-!
Command line arguments. Options may stand before the subcommand and behind it, with their
values attached or as the next argument; behind `--` nothing is an option.
-/

namespace LiveSheet.Cli

inductive OutputFormat where
  | text
  | json
  deriving DecidableEq, Repr

inductive Subcommand where
  | resolve (input : String) (page state : Option String) (format : Option OutputFormat)
  | run (input : String) (page state : Option String) (format : Option OutputFormat)
      (command script : Option String)
  | graph (input : String) (page : Option String)
  | check (input : String) (recursive : Bool)
  deriving Repr

structure Request where
  settings : Option String
  subcommand : Option Subcommand
  deriving Repr

inductive Stop where
  | misuse
  | help
  | version
  deriving DecidableEq, Repr

structure OptionSpec where
  long : String
  letter : Option Char
  takesValue : Bool

/-- The options that were given, by their long names. Flags have an empty value. -/
abbrev Options := List (String × String)

def helpOption : OptionSpec := ⟨"help", some 'h', false⟩

def rootOptions : List OptionSpec :=
  [⟨"config", some 'c', true⟩, ⟨"verbose", some 'v', false⟩, ⟨"version", some 'V', false⟩, helpOption]

def pageOption : OptionSpec := ⟨"page", some 'p', true⟩

def stateOption : OptionSpec := ⟨"state", some 's', true⟩

def formatOption : OptionSpec := ⟨"format", some 'f', true⟩

def isOption (arg : String) : Bool := arg.startsWith "-" && arg != "-"

def nextValue (args : List String) : Except Stop (String × List String) :=
  match args with
  | value :: args => if isOption value then .error .misuse else .ok (value, args)
  | [] => .error .misuse

/-- Takes in an option without a value. Asking for help or the version ends it all. -/
def flag (spec : OptionSpec) : Except Stop (String × String) :=
  if spec.long = "help" then .error .help
  else if spec.long = "version" then .error .version
  else .ok (spec.long, "")

def longOption (specs : List OptionSpec) (name : List Char) (args : List String) :
    Except Stop (Options × List String) := do
  let long := String.ofList (name.takeWhile (· ≠ '='))
  match specs.find? (·.long == long), name.dropWhile (· ≠ '=') with
  | none, _ => .error .misuse
  | some spec, '=' :: value =>
    if spec.takesValue then return ([(spec.long, String.ofList value)], args) else .error .misuse
  | some spec, _ =>
    if spec.takesValue then
      let (value, args) ← nextValue args
      return ([(spec.long, value)], args)
    else return ([← flag spec], args)

/-- Reads letters behind a dash. The first that takes a value takes the rest of them. -/
def shortOptions (specs : List OptionSpec) : List Char → List String → Except Stop (Options × List String)
  | [], args => .ok ([], args)
  | c :: cs, args => do
    match specs.find? (·.letter == some c) with
    | none => .error .misuse
    | some spec =>
      if spec.takesValue then
        match cs with
        | [] =>
          let (value, args) ← nextValue args
          return ([(spec.long, value)], args)
        | '=' :: value => return ([(spec.long, String.ofList value)], args)
        | value => return ([(spec.long, String.ofList value)], args)
      else
        let option ← flag spec
        let (options, args) ← shortOptions specs cs args
        return (option :: options, args)

def readOption (specs : List OptionSpec) (arg : String) (args : List String) :
    Except Stop (Options × List String) :=
  match arg.toList with
  | '-' :: '-' :: name => longOption specs name args
  | _ :: letters => shortOptions specs letters args
  | [] => .error .misuse

def readAll (specs : List OptionSpec) : Nat → List String → Except Stop (Options × List String)
  | 0, _ => .ok ([], [])
  | _, [] => .ok ([], [])
  | n + 1, arg :: args => do
    if arg = "--" then return ([], args)
    else if isOption arg then
      let (options, args) ← readOption specs arg args
      let (others, inputs) ← readAll specs n args
      return (options ++ others, inputs)
    else
      let (options, inputs) ← readAll specs n args
      return (options, arg :: inputs)

def readInput (specs : List OptionSpec) (args : List String) : Except Stop (Options × String) := do
  let (options, inputs) ← readAll (helpOption :: specs) args.length args
  match inputs with
  | [input] => if (options.map Prod.fst).Nodup then return (options, input) else .error .misuse
  | _ => .error .misuse

def outputFormat (options : Options) : Except Stop (Option OutputFormat) :=
  match options.lookup "format" with
  | none => .ok none
  | some "text" => .ok (some .text)
  | some "json" => .ok (some .json)
  | some _ => .error .misuse

def subcommand (name : String) (args : List String) : Except Stop Subcommand :=
  match name with
  | "resolve" => do
    let (options, input) ← readInput [pageOption, formatOption, stateOption] args
    return .resolve input (options.lookup "page") (options.lookup "state") (← outputFormat options)
  | "run" => do
    let specs := [pageOption, formatOption, stateOption, ⟨"command", none, true⟩, ⟨"script", some 'e', true⟩]
    let (options, input) ← readInput specs args
    let command := options.lookup "command"
    let script := options.lookup "script"
    if command.isSome && script.isSome then .error .misuse
    else
      return .run input (options.lookup "page") (options.lookup "state") (← outputFormat options)
        command script
  | "graph" => do
    let (options, input) ← readInput [pageOption] args
    return .graph input (options.lookup "page")
  | "check" => do
    let (options, input) ← readInput [⟨"recursive", some 'r', false⟩] args
    return .check input (options.lookup "recursive").isSome
  | "help" => .error .help
  | _ => .error .misuse

def readRoot (options : Options) : Nat → List String → Except Stop (Options × Option Subcommand)
  | 0, _ => .ok (options, none)
  | _, [] => .ok (options, none)
  | n + 1, arg :: args => do
    if arg = "--" then
      if args.isEmpty then return (options, none) else .error .misuse
    else if isOption arg then
      let (more, args) ← readOption rootOptions arg args
      readRoot (options ++ more) n args
    else return (options, some (← subcommand arg args))

def Request.ofArguments (args : List String) : Except Stop Request := do
  let (options, subcommand) ← readRoot [] args.length args
  let settings := (options.filter (·.1 == "config")).map Prod.snd
  if 1 < settings.length then .error .misuse
  else return ⟨settings.head?, subcommand⟩

end LiveSheet.Cli
