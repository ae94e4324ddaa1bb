import DebugGuard.Cli.Arguments
import DebugGuard.Cli.Disk
import DebugGuard.Expand.Module
import DebugGuard.Settings.Show
import DebugGuard.Text.Offset

/-!
# Running over files

Each file is read, transformed, and printed or written into a folder, on its own: a file that fails
is noted and the next one follows.  Only settings that cannot be read and a folder that cannot be
made stop the run.
-/

namespace DebugGuard.Cli

/-! ### Failures -/

/-- Why one file fails. -/
inductive Cause where
  | unreadable (fault : FileFault)
  | transform (error : TransformError)
  | nameless (path : String)
  | unwritable (target : String) (fault : FileFault)
  deriving DecidableEq, Repr

/-- The cause in words, with the target of a file that could not be written. -/
def Cause.message : Cause → String
  | .unreadable fault => s!"failed to read source file: {fault.message}"
  | .transform error => error.message
  | .nameless path => s!"{path} has no file name"
  | .unwritable target fault => s!"failed to write {target}: {fault.message}"

/-- A file that failed, with its text if it could be read. -/
structure Failure where
  path : String
  source : Option String
  cause : Cause
  deriving DecidableEq, Repr

namespace Failure

/-- The position of a fault in the source text. -/
def pos? (f : Failure) : Option Nat :=
  match f.cause with
  | .transform (.source e) => some e.pos
  | _ => none

/-- The path, with line and column if the fault has a place in the text. -/
def location (f : Failure) : String :=
  match f.pos?, f.source with
  | some pos, some source =>
    let place := Text.Place.ofOffset source pos
    s!"{f.path}:{place.line}:{place.column}"
  | _, _ => f.path

/-- A text between two switches of a terminal.  Where the text itself switches the style off, it is
switched on again. -/
def styled (style text : String) : String :=
  let on := "\x1b[" ++ style ++ "m"
  let off := "\x1b[0m"
  on ++ (off ++ on).intercalate (text.splitOn off) ++ off

/-- The line that reports the failure. -/
def line (color : Bool) (f : Failure) : String :=
  if color then styled "36" f.location ++ " - " ++ styled "1;31" "error" ++ ": " ++ f.cause.message
  else f.location ++ " - error: " ++ f.cause.message

end Failure

/-- Why the whole run stops. -/
inductive Fatal where
  | unreadable (path : String) (fault : FileFault)
  | invalid (path : String) (error : SettingsError)
  | noFolder (path : String) (fault : FileFault)
  deriving DecidableEq, Repr

/-- The outermost cause; what lies below it is not told. -/
def Fatal.message : Fatal → String
  | .unreadable path _ => s!"failed to read options file {path}"
  | .invalid path _ => s!"invalid options file {path}"
  | .noFolder path _ => s!"failed to create output directory {path}"

/-! ### One file -/

/-- What comes of one file. -/
inductive Outcome where
  | printed (text : String)
  | written (path : String)
  | failed (failure : Failure)
  deriving DecidableEq, Repr

/-- The last name of a path, unless it leads up or nowhere. -/
def fileName? (path : String) : Option String :=
  (Path.steps path).getLast?.filter (· != "..")

/-- The path of a name in a folder. -/
def join (folder name : String) : String :=
  if folder.isEmpty || folder.toList.getLast? = some '/' then folder ++ name
  else folder ++ "/" ++ name

variable {m : Type → Type} [Monad m]

/-- Writes the text made of the file at `path` into a folder, under the same name. -/
def deliver (disk : Disk m) (folder path text : String) : m (Except Cause String) := do
  match fileName? path with
  | none => return .error (.nameless path)
  | some name =>
    let target := join folder name
    match ← disk.write target text with
    | .error fault => return .error (.unwritable target fault)
    | .ok () => return .ok target

/-- Transforms one file. -/
def runFile (disk : Disk m) (settings : Settings) (outDir : Option String) (path : String) :
    m Outcome := do
  match ← disk.read path with
  | .error fault => return .failed ⟨path, none, .unreadable fault⟩
  | .ok source =>
    match transform settings source with
    | .error e => return .failed ⟨path, some source, .transform e⟩
    | .ok text =>
      match outDir with
      | none => return .printed text
      | some folder =>
        match ← deliver disk folder path text with
        | .error cause => return .failed ⟨path, some source, cause⟩
        | .ok target => return .written target

/-! ### All files -/

/-- What comes of a run. -/
structure Report where
  outcomes : List Outcome
  deriving DecidableEq, Repr

namespace Report

/-- The text that is printed. -/
def stdout (r : Report) : String :=
  String.join (r.outcomes.filterMap fun | .printed text => some text | _ => none)

/-- The files that are written. -/
def written (r : Report) : List String :=
  r.outcomes.filterMap fun | .written path => some path | _ => none

/-- The files that failed, in the order of the arguments. -/
def failures (r : Report) : List Failure :=
  r.outcomes.filterMap fun | .failed failure => some failure | _ => none

/-- The number of files that did not fail. -/
def transformed (r : Report) : Nat :=
  r.outcomes.countP fun | .failed _ => false | _ => true

/-- The exit code tells whether any file failed. -/
def exitCode (r : Report) : Nat :=
  if r.failures.isEmpty then 0 else 1

end Report

/-- What is kept of the outcomes while files are transformed, one after the other. -/
structure Totals where
  stdout : String := ""
  written : List String := []
  transformed : Nat := 0
  failures : List Failure := []
  deriving DecidableEq, Repr

/-- Takes note of what came of one more file. -/
def Totals.note (t : Totals) : Outcome → Totals
  | .printed text => { t with stdout := t.stdout ++ text, transformed := t.transformed + 1 }
  | .written path => { t with written := t.written ++ [path], transformed := t.transformed + 1 }
  | .failed failure => { t with failures := t.failures ++ [failure] }

/-- The totals of a run that is over. -/
def Report.totals (r : Report) : Totals where
  stdout := r.stdout
  written := r.written
  transformed := r.transformed
  failures := r.failures

/-- Transforms files and takes note of each. -/
def noteFiles (disk : Disk m) (settings : Settings) (outDir : Option String)
    (files : List String) (t : Totals) : m Totals :=
  files.foldlM (fun t path => return t.note (← runFile disk settings outDir path)) t

/-- Transforms all files. -/
def runFiles (disk : Disk m) (settings : Settings) (outDir : Option String)
    (files : List String) : m (Except Fatal Report) := do
  let folder ← match outDir with
    | none => pure (.ok ())
    | some folder => disk.makeFolder folder
  match folder with
  | .error fault => return .error (.noFolder (outDir.getD "") fault)
  | .ok () => return .ok ⟨← files.mapM (runFile disk settings outDir)⟩

/-- Reads the settings from a file. -/
def loadSettings (disk : Disk m) (path : String) : m (Except Fatal Settings) := do
  match ← disk.read path with
  | .error fault => return .error (.unreadable path fault)
  | .ok text =>
    match Settings.parse text with
    | .error e => return .error (.invalid path e)
    | .ok settings => return .ok settings

/-! ### The whole program -/

/-- What the program answers to its arguments. -/
inductive Reply where
  | usage (error : UsageError)
  | fatal (error : Fatal)
  | settings (text : String)
  | report (color : Bool) (report : Report)

namespace Reply

/-- The exit code of the program: 2 where the arguments are at fault, 1 where the run is. -/
def exitCode : Reply → Nat
  | .usage e => e.exitCode
  | .fatal _ => 1
  | .settings _ => 0
  | .report _ r => r.exitCode

end Reply

/-- Does what the arguments ask for; `terminal` says that colors can be shown. -/
def run (disk : Disk m) (terminal : Bool) (args : List String) : m Reply := do
  match Arguments.parse args with
  | .error e => return .usage e
  | .ok args =>
    match ← loadSettings disk args.config with
    | .error e => return .fatal e
    | .ok settings =>
      if args.showConfig then return .settings (settings.shown ++ "\n")
      else
        match ← runFiles disk settings args.outDir args.files with
        | .error e => return .fatal e
        | .ok r => return .report (terminal && !args.noColor) r

end DebugGuard.Cli
