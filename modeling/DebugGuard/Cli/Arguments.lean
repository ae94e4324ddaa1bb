/-!
# Command line arguments

An option that takes a value finds it behind an equals sign, behind its letter, or in the next
argument.  Arguments that are no options are files, and behind `--` all are.  An argument that waits
for its value is settled when the next option comes, so a fault in it is seen only then.
-/

namespace DebugGuard.Cli

/-- Why the arguments ask for nothing that could be done; help and version are answers too. -/
inductive UsageError where
  | missingRequired
  | unknownArgument
  /-- An option without its value, or an empty value. -/
  | invalidValue
  /-- A value for an option that takes none. -/
  | tooManyValues
  /-- An option given twice. -/
  | conflict
  | help
  | version
  deriving DecidableEq, Repr

/-- The exit code: help and version are no failures. -/
def UsageError.exitCode : UsageError → Nat
  | .help | .version => 0
  | _ => 2

/-- What is wrong with the arguments, in words. -/
def UsageError.message : UsageError → String
  | .missingRequired => "an argument that is required is missing"
  | .unknownArgument => "there is no such option"
  | .invalidValue => "an option or a file has no value"
  | .tooManyValues => "an option that takes no value has one"
  | .conflict => "an option is given twice"
  | .help => "help is asked for"
  | .version => "the version is asked for"

/-- What the arguments ask for. -/
structure Arguments where
  /-- The file of the settings. -/
  config : String
  outDir : Option String
  showConfig : Bool
  noColor : Bool
  files : List String
  deriving DecidableEq, Repr

namespace Arguments

/-- The options that take a value. -/
inductive Setting where
  | config
  | outDir
  deriving DecidableEq, Repr

/-- The options that take none. -/
inductive Switch where
  | showConfig
  | noColor
  | help
  | version
  deriving DecidableEq, Repr

/-- An option of either sort. -/
inductive Opt where
  | setting (s : Setting)
  | switch (s : Switch)

/-- The option with a long name. -/
def ofLongName? (name : String) : Option Opt :=
  if name == "config" then some (.setting .config)
  else if name == "out-dir" || name == "outDir" then some (.setting .outDir)
  else if name == "show-config" || name == "showConfig" then some (.switch .showConfig)
  else if name == "no-color" then some (.switch .noColor)
  else if name == "help" then some (.switch .help)
  else if name == "version" then some (.switch .version)
  else none

/-- The option with a letter. -/
def ofLetter? : Char → Option Opt
  | 'c' => some (.setting .config)
  | 'o' => some (.setting .outDir)
  | 'h' => some (.switch .help)
  | 'V' => some (.switch .version)
  | _ => none

/-- What waits to be settled. -/
inductive Waiting where
  | nothing
  /-- An option, with its value if that has come. -/
  | setting (s : Setting) (value : Option String)
  | files (names : List String)

/-- What has been read so far. -/
structure Draft where
  config : Option String
  outDir : Option String
  showConfig : Bool
  noColor : Bool
  files : List String
  waiting : Waiting
  /-- All arguments that follow are files. -/
  onlyFiles : Bool

namespace Draft

/-- Nothing has been read. -/
def start : Draft := ⟨none, none, false, false, [], .nothing, false⟩

/-- Gives an option its value, once. -/
def give (d : Draft) (s : Setting) (value : String) : Except UsageError Draft :=
  let given := match s with
    | .config => d.config.isSome
    | .outDir => d.outDir.isSome
  if given then .error .conflict
  else if value.isEmpty then .error .invalidValue
  else
    match s with
    | .config => .ok { d with config := some value }
    | .outDir => .ok { d with outDir := some value }

/-- Settles what waits. -/
def settle (d : Draft) : Except UsageError Draft :=
  match d.waiting with
  | .nothing => .ok d
  | .setting _ none => .error .invalidValue
  | .setting s (some value) => { d with waiting := .nothing }.give s value
  | .files names =>
    if names.any String.isEmpty then .error .invalidValue
    else .ok { d with files := d.files ++ names, waiting := .nothing }

/-- Turns a switch on, once; the ones for help and version answer at once. -/
def flip (d : Draft) (s : Switch) : Except UsageError Draft := do
  let d ← d.settle
  match s with
  | .showConfig => if d.showConfig then .error .conflict else .ok { d with showConfig := true }
  | .noColor => if d.noColor then .error .conflict else .ok { d with noColor := true }
  | .help => .error .help
  | .version => .error .version

/-- An option, with the value that is attached to it. -/
def option (d : Draft) (o : Opt) (attached : Option String) : Except UsageError Draft :=
  match o, attached with
  | .switch s, none => d.flip s
  | .switch _, some _ => .error .tooManyValues
  | .setting s, none => return { ← d.settle with waiting := .setting s none }
  | .setting s, some value => do (← d.settle).give s value

/-- A file, or the value that an option waits for. -/
def plain (d : Draft) (text : String) : Except UsageError Draft :=
  match d.waiting, d.onlyFiles with
  | .setting s none, false => .ok { d with waiting := .setting s (some text) }
  | .files names, _ => .ok { d with waiting := .files (names ++ [text]) }
  | _, _ => return { ← d.settle with waiting := .files [text] }

/-- Takes one argument. -/
def step (d : Draft) (text : String) : Except UsageError Draft :=
  if d.onlyFiles then d.plain text
  else
    match text.toList with
    | ['-', '-'] => .ok { d with onlyFiles := true }
    | '-' :: '-' :: body =>
      let name := body.takeWhile (· != '=')
      let value := match body.drop name.length with
        | _ :: value => some (String.ofList value)
        | [] => none
      match ofLongName? (String.ofList name) with
      | some o => d.option o value
      | none => .error .unknownArgument
    | '-' :: letter :: body =>
      match ofLetter? letter with
      | none => .error .unknownArgument
      | some (.switch s) => d.flip s
      | some o =>
        match body with
        | [] => d.option o none
        | '=' :: value => d.option o (some (String.ofList value))
        | value => d.option o (some (String.ofList value))
    | _ => d.plain text

/-- Checks that what is needed has been given: the settings, and files unless only the settings are
to be shown. -/
def complete (d : Draft) : Except UsageError Arguments := do
  let d ← d.settle
  match d.config with
  | none => .error .missingRequired
  | some config =>
    if d.files.isEmpty && !d.showConfig then .error .missingRequired
    else .ok ⟨config, d.outDir, d.showConfig, d.noColor, d.files⟩

end Draft

/-- The options in short. -/
def help : String :=
  "Usage: debug-macros [OPTIONS] --config <CONFIG> <FILES>...\n\n" ++
  "  -c, --config <CONFIG>    the file of the settings\n" ++
  "  -o, --out-dir <OUT_DIR>  write each module into this folder\n" ++
  "      --show-config        print the settings and stop\n" ++
  "      --no-color           report errors without colors\n" ++
  "  -h, --help               print this\n" ++
  "  -V, --version            print the version"

/-- The name of the program and its version. -/
def version : String := "debug-macros 0.1.0"

/-- Reads the arguments that follow the program's name. -/
def parse (args : List String) : Except UsageError Arguments := do
  (← args.foldlM Draft.step .start).complete

end Arguments

end DebugGuard.Cli
