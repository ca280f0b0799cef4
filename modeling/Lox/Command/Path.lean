/-! # Paths

The names in a path and the extension of the file that it names. -/

namespace Lox.Path

/-- The names in a path. Slashes side by side divide as one does. -/
def names (path : String) : List String := (path.splitOn "/").filter (· ≠ "")

/-- Whether a path starts at the root of the file system. -/
def isAbsolute (path : String) : Bool := path.startsWith "/"

/-- Whether a slash ends a path. Such a path can name only a directory. -/
def endsInSlash (path : String) : Bool := path.endsWith "/"

/-- What follows the last point of the file's name. A point at the start of a name begins no extension. -/
def extension? (path : String) : Option String :=
  match ((names path).filter (· ≠ ".")).getLast? with
  | none | some ".." => none
  | some name =>
    let (backwards, rest) := name.toList.reverse.span (· != '.')
    if rest.length < 2 then none else some (String.ofList backwards.reverse)

end Lox.Path
