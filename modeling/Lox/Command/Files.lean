import Lox.Command.Path
import Lox.Command.Terminal

/-! # Files

A file system as plain data: which files there are, and what a path leads to. A path is followed name
by name from the working directory or from the root, and the first name that leads nowhere decides what
is wrong with it. -/

namespace Lox.Command

/-- Where the names of a location start. -/
inductive Base where
  | root
  /-- The directory so many levels above the working directory. -/
  | above (levels : Nat)
deriving DecidableEq, Repr

/-- A place in the file system: the names that lead to it from its base, innermost first. -/
structure Location where
  base : Base := .above 0
  names : List String := []
deriving DecidableEq, Repr

namespace Location

/-- The place with a name in a directory. -/
def child (directory : Location) (name : String) : Location :=
  { directory with names := name :: directory.names }

/-- The directory that holds a place. The root holds itself. -/
def parent : Location → Location
  | ⟨base, _ :: names⟩ => ⟨base, names⟩
  | ⟨.root, []⟩ => ⟨.root, []⟩
  | ⟨.above levels, []⟩ => ⟨.above (levels + 1), []⟩

/-- Whether a place lies inside another, at any depth. -/
def isInside (place directory : Location) : Bool :=
  place.base = directory.base && directory.names.isSuffixOf place.names && place.names ≠ directory.names

/-- Where a path starts. -/
def start (path : String) : Location := if Path.isAbsolute path then ⟨.root, []⟩ else {}

end Location

/-- What stands at a place. -/
inductive Entry where
  | directory
  | file (bytes : ByteArray)

/-- The files with their places. A directory is there if it is a base or if a file lies inside it. -/
structure Files where
  entries : List (Location × ByteArray) := []

namespace Files

/-- The longest name in a directory, in bytes. -/
def maxName : Nat := 255

/-- The longest path, in bytes. -/
def maxPath : Nat := 4095

/-- Files in the working directory, given by their paths in it. -/
def ofList (files : List (String × ByteArray)) : Files :=
  ⟨files.map fun (path, bytes) => ({ names := (Path.names path).reverse }, bytes)⟩

/-- Whether there is a directory at a place. -/
def isDirectory (files : Files) (place : Location) : Bool :=
  place.names.isEmpty || files.entries.any fun (file, _) => file.isInside place

/-- What stands at a place. -/
def entry? (files : Files) (place : Location) : Option Entry :=
  match files.entries.lookup place with
  | some bytes => some (.file bytes)
  | none => if files.isDirectory place then some .directory else none

/-- Goes from a directory by one name: a single point stays, two points go up, and any other name goes down. -/
def enter (directory : Location) (name : String) : Except FileProblem Location :=
  if name = "." then .ok directory
  else if name = ".." then .ok directory.parent
  else if maxName < name.utf8ByteSize then .error .nameTooLong
  else .ok (directory.child name)

/-- Follows names each of which has to lead to a directory. -/
def follow (files : Files) (directory : Location) : List String → Except FileProblem Location
  | [] => .ok directory
  | name :: names => do
    let place ← enter directory name
    match files.entry? place with
    | some .directory => files.follow place names
    | some (.file _) => .error .notDirectory
    | none => .error .missing

/-- Follows a path up to its last name, and gives the directory and that name. -/
def locate (files : Files) (path : String) : Except FileProblem (Location × String) := do
  if path = "" then throw .missing
  if maxPath < path.utf8ByteSize then throw .nameTooLong
  let names := Path.names path
  let directory ← files.follow (Location.start path) names.dropLast
  return (directory, names.getLastD ".")

/-- The bytes of the file at a path. -/
def read (files : Files) (path : String) : Except FileProblem ByteArray := do
  let (directory, name) ← files.locate path
  match files.entry? (← enter directory name) with
  | none => .error .missing
  | some .directory => .error .isDirectory
  | some (.file bytes) => if Path.endsInSlash path then .error .notDirectory else .ok bytes

/-- The files after bytes are written to the one at a path, which is made if it is missing. Its directory has to
    exist. -/
def write (files : Files) (path : String) (bytes : ByteArray) : Except FileProblem Files := do
  let (directory, name) ← files.locate path
  if Path.endsInSlash path then throw .isDirectory
  let place ← enter directory name
  match files.entry? place with
  | some .directory => .error .isDirectory
  | _ => return ⟨(place, bytes) :: files.entries.filter fun (file, _) => file ≠ place⟩

end Files

end Lox.Command
