/-! # Terminals

What the command needs of its surroundings: files, lines of input, output, complaints and the time. -/

namespace Lox.Command

/-- Why a file cannot be read or written. -/
inductive FileProblem where
  | missing
  | notDirectory
  | isDirectory
  | nameTooLong
  | denied
  | other (complaint : String)
deriving DecidableEq, Repr

/-- The wording of a problem with a file. -/
def FileProblem.message : FileProblem → String
  | missing => "No such file or directory (os error 2)"
  | notDirectory => "Not a directory (os error 20)"
  | isDirectory => "Is a directory (os error 21)"
  | nameTooLong => "File name too long (os error 36)"
  | denied => "Permission denied (os error 13)"
  | other complaint => complaint

/-- The surroundings of the command, with effects in `m`. -/
structure Terminal (m : Type → Type) where
  readFile : (path : String) → m (Except FileProblem ByteArray)
  writeFile : (path : String) → (bytes : ByteArray) → m (Except FileProblem Unit)
  /-- The next line of input with its line break; empty at the end of the input. -/
  readLine : m ByteArray
  write : (bytes : ByteArray) → m Unit
  complain : (text : String) → m Unit
  /-- The seconds since the beginning of 1970. -/
  now : m Float

/-- Writes a text to the output. -/
def Terminal.print {m : Type → Type} (terminal : Terminal m) (text : String) : m Unit :=
  terminal.write text.toUTF8

end Lox.Command
