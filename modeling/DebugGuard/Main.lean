import DebugGuard.Cli.Run

/-!
# The program

The disk of the system and the streams of the terminal, around `Cli.run`.
-/

namespace DebugGuard.Cli

/-- What an error of the system says about a file.  Its number comes with either sign. -/
def FileFault.ofSystem (error : IO.Error) : FileFault :=
  match error with
  | .noFileOrDirectory .. => .missing
  | .inappropriateType _ code _ => if code = 20 ∨ code = -20 then .notFolder else .isFolder
  | _ => .other (toString error)

/-- Does something to a file and reports what the system has against it. -/
def attempt {α : Type} (action : IO α) : IO (Except FileFault α) := do
  match ← action.toBaseIO with
  | .ok value => return .ok value
  | .error e => return .error (.ofSystem e)

/-- The disk of the system. -/
def systemDisk : Disk IO where
  read path := do
    match ← attempt (IO.FS.readBinFile path) with
    | .error fault => return .error fault
    | .ok bytes =>
      match String.fromUTF8? bytes with
      | some text => return .ok text
      | none => return .error .notText
  makeFolder path := attempt (IO.FS.createDirAll path)
  write path text := attempt (IO.FS.writeFile path text)

/-- Prints a reply. -/
def Reply.print : Reply → IO Unit
  | .usage .help => IO.println Arguments.help
  | .usage .version => IO.println Arguments.version
  | .usage e => IO.eprintln s!"error: {e.message}\n\n{Arguments.help}"
  | .fatal e => IO.eprintln s!"Error: {e.message}"
  | .settings text => IO.print text
  | .report color r => do
    IO.print r.stdout
    for failure in r.failures do
      IO.eprintln (failure.line color)

end DebugGuard.Cli

open DebugGuard.Cli in
/-- Runs the program on the disk of the system and prints its reply. -/
def main (args : List String) : IO UInt32 := do
  let reply ← run systemDisk (← (← IO.getStderr).isTty) args
  reply.print
  return reply.exitCode.toUInt32
