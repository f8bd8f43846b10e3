import NativeBackend.CommandLine.Run

/-!
# File trees as values

Files and directories by their places, for running commands without a disk. A path is
followed part by part from the root or the working directory: empty parts and single dots
stay in place, two dots go up, and every part but the last must lead to a directory. A
slash at the end of a path asks for a directory, so nothing can be written there.
-/

namespace NativeBackend.CommandLine

/-- The permissions of a written executable. -/
def executableMode : Nat := 0o755

/-- The permissions of other files. -/
def plainMode : Nat := 0o644

/-- The bytes of the longest name. -/
def nameLimit : Nat := 255

/-- The bytes of the longest path. -/
def pathLimit : Nat := 4095

/-- What lies at a place. -/
inductive Entry
  | directory
  | file (bytes : List UInt8) (mode : Nat)
  /-- A device that is always empty and takes whatever is written to it. -/
  | sink
  deriving DecidableEq, Repr

/-- The names on the way from a place up to the root, the place's own name first. -/
abbrev Place := List String

/-- Why a path leads nowhere of use. -/
inductive PathFault
  | notFound
  | notDirectory
  | isDirectory
  | nameTooLong
  | notText
  deriving DecidableEq, Repr

/-- The words of the system for the fault. -/
def PathFault.message : PathFault → String
  | notFound => "No such file or directory (os error 2)"
  | notDirectory => "Not a directory (os error 20)"
  | isDirectory => "Is a directory (os error 21)"
  | nameTooLong => "File name too long (os error 36)"
  | notText => "stream did not contain valid UTF-8"

/-- What lies where, and the working directory. -/
structure FileTree where
  entries : List (Place × Entry)
  here : Place
  deriving DecidableEq, Repr

namespace FileTree

/-- What lies at a place. The root is always a directory. -/
def at? (t : FileTree) : Place → Option Entry
  | [] => some .directory
  | place => t.entries.lookup place

/-- The tree with an entry at a place. -/
def insert (t : FileTree) (place : Place) (e : Entry) : FileTree :=
  { t with entries := (place, e) :: t.entries }

/-- The place that a part of a path leads to from another. -/
def follow (place : Place) (part : String) : Except PathFault Place :=
  if part = "." then .ok place
  else if part = ".." then .ok place.tail
  else if nameLimit < part.utf8ByteSize then .error .nameTooLong
  else .ok (part :: place)

/-- The directory that parts of a path lead to, each of which must lead to one. -/
def enter (t : FileTree) (place : Place) : List String → Except PathFault Place
  | [] => .ok place
  | part :: rest => do
    let next ← follow place part
    match t.at? next with
    | some .directory => enter t next rest
    | some _ => .error .notDirectory
    | none => .error .notFound

/-- A path taken apart: where it starts, its parts, and whether a slash ends it. -/
structure Path where
  isAbsolute : Bool
  parts : List String
  endsInSlash : Bool
  deriving DecidableEq, Repr

/-- The parts of a written path, without the empty ones. -/
def Path.ofText (text : String) : Path :=
  ⟨text.toList.head? == some '/', (text.splitOn "/").filter (· != ""),
    text.toList.getLast? == some '/'⟩

/-- The directory before the last part of a path. -/
def parentOf (t : FileTree) (path : Path) : Except PathFault Place :=
  t.enter (if path.isAbsolute then [] else t.here) path.parts.dropLast

/-- The place that a path leads to. -/
def resolve (t : FileTree) (path : Path) : Except PathFault Place := do
  let parent ← t.parentOf path
  match path.parts.getLast? with
  | some part => follow parent part
  | none => return parent

/-- Whether the last part of a path is a name. -/
def Path.endsInName (path : Path) : Bool :=
  match path.parts.getLast? with
  | some part => part != "." && part != ".."
  | none => false

/-- A path short enough to be followed. -/
def checkedPath (text : String) : Except PathFault Path :=
  if pathLimit < text.utf8ByteSize then .error .nameTooLong else .ok (.ofText text)

/-- The text in bytes of a file. -/
def textOf (bytes : List UInt8) : Except PathFault String :=
  match String.fromUTF8? ⟨bytes.toArray⟩ with
  | some text => .ok text
  | none => .error .notText

/-- The text of the file at a path. -/
def read (t : FileTree) (text : String) : Except PathFault String := do
  let path ← checkedPath text
  match t.at? (← t.resolve path), path.endsInSlash with
  | none, _ => .error .notFound
  | some .directory, _ => .error .isDirectory
  | some _, true => .error .notDirectory
  | some .sink, false => .ok ""
  | some (.file bytes _), false => textOf bytes

/-- The tree with an executable at a path. That a slash ends the path is noticed before its last
name is looked at. -/
def write (t : FileTree) (text : String) (bytes : List UInt8) : Except PathFault FileTree := do
  let path ← checkedPath text
  let parent ← t.parentOf path
  match path.parts.getLast? with
  | none => .error .isDirectory
  | some part =>
    if !path.endsInName || path.endsInSlash then .error .isDirectory
    else
      let place ← follow parent part
      match t.at? place with
      | some .directory => .error .isDirectory
      | some .sink => .ok t
      | _ => .ok (t.insert place (.file bytes executableMode))

/-- The directories under the root that every machine has. -/
def standardDirectories : List String :=
  ["bin", "dev", "etc", "home", "lib", "mnt", "opt", "proc", "root", "run", "sbin", "srv", "sys",
    "tmp", "usr", "var"]

/-- A working directory for one run. -/
def freshDirectory : Place := ["work", "tmp"]

/-- A machine with an empty working directory. -/
def fresh : FileTree where
  entries :=
    [(freshDirectory, .directory), (["null", "dev"], .sink)]
      ++ standardDirectories.map fun name ↦ ([name], .directory)
  here := freshDirectory

/-- The tree with a text in a file of the working directory. -/
def addText (t : FileTree) (name text : String) : FileTree :=
  t.insert (name :: t.here) (.file text.toUTF8.data.toList plainMode)

/-- What lies under a name in the working directory. -/
def local? (t : FileTree) (name : String) : Option Entry := t.at? (name :: t.here)

/-- The files of a tree that is the state of a run. -/
def files : Files (StateM FileTree) where
  read path := return ((← get).read path).mapError PathFault.message
  write path bytes := do
    match (← get).write path bytes with
    | .ok t => set t; return .ok ()
    | .error fault => return .error fault.message

/-- A run of the program in a tree, and the tree after it. -/
def run (t : FileTree) (arguments : List String) : Outcome × FileTree :=
  (CommandLine.run files arguments).run t

end FileTree

end NativeBackend.CommandLine
