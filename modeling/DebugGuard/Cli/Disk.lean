/-!
# Files

What the program asks of a disk (`Disk`), and a disk in memory (`Files`) that answers as a real one
does.  A path is walked name by name, and only through folders: `.` and empty names stay, `..` goes
up.

The name of the working folder is not known.  Above it there is always another folder, and of what
that one holds only what is put there is known.
-/

namespace DebugGuard.Cli

/-- Why a file cannot be read or written. -/
inductive FileFault where
  | missing
  | isFolder
  | notFolder
  /-- The bytes of the file are no text. -/
  | notText
  | tooLong
  | zeroInPath
  /-- Anything else that the system reports. -/
  | other (text : String)
  deriving DecidableEq, Repr

/-- The words of the system, with its number for the fault. -/
def FileFault.message : FileFault → String
  | .missing => "No such file or directory (os error 2)"
  | .isFolder => "Is a directory (os error 21)"
  | .notFolder => "Not a directory (os error 20)"
  | .notText => "stream did not contain valid UTF-8"
  | .tooLong => "File name too long (os error 36)"
  | .zeroInPath => "file name contained an unexpected NUL byte"
  | .other text => text

/-- What is asked of a disk. -/
structure Disk (m : Type → Type) where
  read : String → m (Except FileFault String)
  /-- Makes a folder and those on the way to it, as far as they are missing. -/
  makeFolder : String → m (Except FileFault Unit)
  write : String → String → m (Except FileFault Unit)

/-! ### Places on a disk -/

/-- A folder that is always there. -/
inductive Anchor where
  | root
  /-- The folder that many levels above the working folder, itself at level zero. -/
  | above (levels : Nat)
  deriving DecidableEq, Repr

/-- A place on a disk: the names on the way from an anchor. -/
structure Location where
  anchor : Anchor
  names : List String
  deriving DecidableEq, Repr

namespace Location

/-- The folder above; the one above the root is the root. -/
def parent (loc : Location) : Location :=
  match loc.names, loc.anchor with
  | [], .root => loc
  | [], .above levels => ⟨.above (levels + 1), []⟩
  | names, anchor => ⟨anchor, names.dropLast⟩

/-- The place of a name as seen from a folder. -/
def child (loc : Location) (name : String) : Location :=
  if name == "" || name == "." then loc
  else if name == ".." then loc.parent
  else { loc with names := loc.names ++ [name] }

end Location

namespace Path

/-- The names that a path consists of, empty ones included. -/
def names (path : String) : List String :=
  (path.toList.splitOn '/').map String.ofList

/-- The names that lead somewhere. -/
def steps (path : String) : List String :=
  (names path).filter fun n => n != "" && n != "."

/-- The most bytes that a path may have. -/
def limit : Nat := 4095

/-- The most bytes that a name may have. -/
def nameLimit : Nat := 255

/-- Where a path starts, provided that it is one. -/
def start (path : String) : Except FileFault Location :=
  if path.isEmpty then .error .missing
  else if path.toList.contains '\x00' then .error .zeroInPath
  else if limit < path.utf8ByteSize then .error .tooLong
  else .ok ⟨if path.toList.head? = some '/' then .root else .above 0, []⟩

end Path

/-! ### A disk in memory -/

/-- What there may be at a place: a folder or a file, of which only a text can be read. -/
inductive Entry where
  | folder
  | text (content : String)
  /-- A file whose bytes are no text. -/
  | binary
  deriving DecidableEq, Repr

/-- A disk in memory: what is at the places that something was put to, each listed once. -/
structure Files where
  entries : List (Location × Entry)
  deriving Repr

namespace Files

/-- A disk with nothing on it but the anchors. -/
def empty : Files := ⟨[]⟩

/-- What is at a place; an anchor is a folder. -/
def find? (fs : Files) (loc : Location) : Option Entry :=
  if loc.names.isEmpty then some .folder else (fs.entries.find? (·.1 == loc)).map (·.2)

/-- Puts something at a place. -/
def put (fs : Files) (loc : Location) (entry : Entry) : Files :=
  ⟨(loc, entry) :: fs.entries.filter (·.1 != loc)⟩

/-- The place of a name in a folder. -/
def enter (fs : Files) (loc : Location) (name : String) : Except FileFault Location :=
  if fs.find? loc ≠ some .folder then .error .notFolder
  else if Path.nameLimit < name.utf8ByteSize then .error .tooLong
  else .ok (loc.child name)

/-- Walks from a place, through folders, to a place that exists. -/
def walk (fs : Files) (loc : Location) : List String → Except FileFault Location
  | [] => .ok loc
  | name :: rest => do
    let next ← fs.enter loc name
    if (fs.find? next).isNone then .error .missing else fs.walk next rest

/-- The text of the file at a path. -/
def read (fs : Files) (path : String) : Except FileFault String := do
  let loc ← fs.walk (← Path.start path) (Path.names path)
  match fs.find? loc with
  | some (.text content) => return content
  | some .binary => throw .notText
  | some .folder => throw .isFolder
  | none => throw .missing

/-- Makes the folders on a way that are missing. -/
def makeFoldersFrom (fs : Files) (loc : Location) : List String → Except FileFault Files
  | [] => .ok fs
  | name :: rest => do
    let next ← fs.enter loc name
    match fs.find? next with
    | some .folder => fs.makeFoldersFrom next rest
    | none => (fs.put next .folder).makeFoldersFrom next rest
    | some _ => .error .notFolder

/-- Makes a folder.  The last step of the path is not on the way to it: where dots follow that step,
its folder has to be there. -/
def makeFolder (fs : Files) (path : String) : Except FileFault Files :=
  if path.isEmpty then .ok fs
  else do
    let start ← Path.start path
    let fs ← fs.makeFoldersFrom start (Path.steps path).dropLast
    let names := (Path.names path).filter (· != "")
    let folder ← fs.walk start names.dropLast
    fs.makeFoldersFrom folder names.getLast?.toList

/-- Puts a file into a folder that exists, in the place of what was there. -/
def store (fs : Files) (path : String) (file : Entry) : Except FileFault Files := do
  let names := Path.names path
  let folder ← fs.walk (← Path.start path) names.dropLast
  let loc ← fs.enter folder (names.getLastD "")
  if fs.find? loc = some .folder then throw .isFolder
  return fs.put loc file

/-- Writes a text to a path, over what was there. -/
def write (fs : Files) (path content : String) : Except FileFault Files :=
  fs.store path (.text content)

/-- Puts a file on the disk, with the folders on the way to it. -/
def withFile (fs : Files) (path : String) (file : Entry) : Files :=
  let stored : Except FileFault Files := do
    let fs ← fs.makeFoldersFrom (← Path.start path) (Path.steps path).dropLast
    fs.store path file
  stored.toOption.getD fs

/-- Does something that changes the disk, unless it is refused. -/
def change (act : Files → Except FileFault Files) : StateM Files (Except FileFault Unit) :=
  fun fs =>
  match act fs with
  | .ok fs' => (.ok (), fs')
  | .error e => (.error e, fs)

/-- The disk in memory. -/
def disk : Disk (StateM Files) where
  read path := return (← get).read path
  makeFolder path := change (·.makeFolder path)
  write path content := change (·.write path content)

end Files

end DebugGuard.Cli
