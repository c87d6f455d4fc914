import Tricode.CommandLine

/-!
# Folders in memory

A folder as the texts of its files by path, so that commands can be carried out without a disk.

A path is walked one name at a time from the folder, or from the root if it starts with a slash.
Each step asks for a directory to stand in, so `.` and `..` lead nowhere from a file and from what
is not there, and the first name that cannot be followed decides the error. Of the system around
the folder only what every system has is known: the directories above the folder, those right
below the root, and a few devices.
-/

namespace Tricode

/-! ## Paths -/

/-- A path taken apart. -/
structure Path where
  isAbsolute : Bool
  /-- The names between the slashes, among them `.` and `..`. -/
  segments : List String
  /-- A slash follows the last name, so it has to be that of a directory. -/
  isSlashed : Bool
  deriving DecidableEq, Repr

namespace Path

/-- The most bytes of a path that can be followed. -/
def maxBytes : Nat := 4095

/-- The most bytes of one name. -/
def maxNameBytes : Nat := 255

/-- The path that a text spells. Slashes next to each other count as one. -/
def ofString (text : String) : Path where
  isAbsolute := text.toList.head? == some '/'
  segments := (text.splitOn "/").filter (· != "")
  isSlashed := text.toList.getLast? == some '/'

/-- The name leads to the directory itself or to the one above it. -/
def isDots (name : String) : Bool := name == "." || name == ".."

/-- The names to follow before a file is opened for writing. No file can be created under a name
that a slash follows, so that name is not looked up. -/
def segmentsToWrite (p : Path) : List String :=
  match p.segments.getLast? with
  | some name =>
    if p.isSlashed && !isDots name then p.segments.dropLast ++ ["."] else p.segments
  | none => []

end Path

/-! ## What a path leads to -/

/-- What can be read or written like a file and is none. -/
inductive Device where
  /-- Always empty, and whatever is written to it is gone. -/
  | null
  /-- A disk without space. -/
  | full
  /-- What the command is given to read, which is nothing. -/
  | input
  /-- What the command prints. -/
  | output
  /-- What the command reports. -/
  | errors
  deriving DecidableEq, Repr

/-- What there is at a place. -/
inductive Node where
  | directory
  | file (text : String)
  | device (device : Device)
  | absent
  deriving DecidableEq, Repr

/-- A place in the whole system, as the names that lead to it from the root. -/
abbrev Location := List String

/-- The directories right below the root. -/
def rootDirectories : List String :=
  ["bin", "boot", "dev", "etc", "home", "lib", "media", "mnt", "opt", "proc", "root", "run",
    "sbin", "srv", "sys", "tmp", "usr", "var"]

/-- The devices by name, all of them below `dev`. -/
def devices : List (String × Device) :=
  [("null", .null), ("full", .full), ("stdin", .input), ("stdout", .output), ("stderr", .errors)]

/-- What is known of a place outside the folder. -/
def systemNode (l : Location) : Node :=
  match l with
  | [] => .directory
  | [name] => if rootDirectories.contains name then .directory else .absent
  | ["dev", name] => ((devices.lookup name).map Node.device).getD .absent
  | _ => .absent

/-- The texts of files, by path. -/
structure Folder where
  files : List (String × String)

namespace Folder

/-- Where the folder is. -/
def home : Location := ["tmp", "folder"]

/-- Where the file of the given name is. -/
def location (name : String) : Location :=
  home ++ (Path.ofString name).segments.filter (· != ".")

/-- The text of the file at a place. -/
def text? (f : Folder) (l : Location) : Option String :=
  (f.files.find? fun (name, _) ↦ location name == l).map Prod.snd

/-- The folder itself, one above it, or one that some file is in. -/
def hasDirectory (f : Folder) (l : Location) : Bool :=
  l.isPrefixOf home || f.files.any fun (name, _) ↦ l.isPrefixOf (location name)

/-- What there is at a place, in the folder or around it. -/
def node (f : Folder) (l : Location) : Node :=
  match f.text? l with
  | some text => .file text
  | none => if f.hasDirectory l then .directory else systemNode l

/-- Where a name leads from a place, which has to be a directory. -/
def step (f : Folder) (l : Location) (name : String) : Except FileError Location :=
  match f.node l with
  | .directory =>
    if name = "." then .ok l
    else if name = ".." then .ok l.dropLast
    else if Path.maxNameBytes < name.utf8ByteSize then .error .nameTooLong
    else .ok (l ++ [name])
  | .absent => .error .notFound
  | .file _ | .device _ => .error .notDirectory

/-- Where names lead one after another. -/
def walk (f : Folder) : Location → List String → Except FileError Location
  | l, [] => .ok l
  | l, name :: names => do
    let next ← f.step l name
    f.walk next names

/-- Where a path leads of which the given names are followed. -/
def locate (f : Folder) (path : String) (names : Path → List String) :
    Except FileError Location :=
  let p := Path.ofString path
  if Path.maxBytes < path.utf8ByteSize then .error .nameTooLong
  else f.walk (if p.isAbsolute then [] else home) (names p)

/-! ## Reading and writing -/

/-- The text of the file that a path leads to. That of a device is empty. -/
def read (f : Folder) (path : String) : Except FileError String := do
  let l ← f.locate path Path.segments
  match f.node l with
  | .directory => .error .isDirectory
  | .absent => .error .notFound
  | .file text => if (Path.ofString path).isSlashed then .error .notDirectory else .ok text
  | .device _ => if (Path.ofString path).isSlashed then .error .notDirectory else .ok ""

/-- The folder with a text at a place. What is outside the folder is not kept. -/
def put (f : Folder) (l : Location) (text : String) : Folder :=
  if (f.text? l).isSome then
    ⟨f.files.map fun (name, old) ↦ if location name == l then (name, text) else (name, old)⟩
  else if home.isPrefixOf l then
    ⟨f.files ++ [(String.intercalate "/" (l.drop home.length), text)]⟩
  else f

/-- The files that are new or different after a change. -/
def changes (before after : Folder) : List (String × String) :=
  after.files.filter fun (name, text) ↦ before.files.lookup name != some text

end Folder

/-! ## Commands on a folder -/

/-- A folder, and what was written to the devices that print and report. -/
structure Session where
  folder : Folder
  output : String
  errors : String

namespace Session

/-- Writes a text to where a path leads, and creates a file if there is none. -/
def write (s : Session) (path text : String) : Except FileError Session := do
  let l ← s.folder.locate path Path.segmentsToWrite
  match s.folder.node l with
  | .directory => .error .isDirectory
  | .file _ | .absent => .ok { s with folder := s.folder.put l text }
  | .device .null | .device .input => .ok s
  | .device .full => .error .noSpace
  | .device .output => .ok { s with output := s.output ++ text }
  | .device .errors => .ok { s with errors := s.errors ++ text }

/-- A session as what provides files. -/
def provider : Files (StateM Session) where
  read path := do
    let s ← get
    pure (s.folder.read path)
  write path text := do
    let s ← get
    match s.write path text with
    | .ok next =>
      set next
      pure (.ok ())
    | .error e => pure (.error e)

end Session

/-- The outcome of a command and the folder after it. A command reports before it writes and
prints nothing of its own once it has written, which is the order in which the texts are joined. -/
def Command.runOn (command : Command) (f : Folder) : Outcome × Folder :=
  let (outcome, s) := (command.run Session.provider).run ⟨f, "", ""⟩
  (⟨outcome.code, s.output ++ outcome.output, outcome.errors ++ s.errors⟩, s.folder)

end Tricode
