import Lox.Command
import Std.Time.DateTime.Timestamp

/-! # The program

The command on the real terminal. -/

namespace Lox.Main

open Command

/-- The number of a failure, which some calls of the system give as a negative word. -/
def failureNumber (code : UInt32) : UInt32 := min code (0 - code)

/-- A failure of the system as a problem with a file. -/
def fileProblem (problem : IO.Error) : FileProblem :=
  match problem with
  | .noFileOrDirectory .. => .missing
  | .inappropriateType _ code _ | .invalidArgument _ code _ | .permissionDenied _ code _ =>
    match failureNumber code with
    | 13 => .denied
    | 20 => .notDirectory
    | 21 => .isDirectory
    | 36 => .nameTooLong
    | _ => .other (toString problem)
  | _ => .other (toString problem)

/-- Reads the bytes of the next line of the standard input. -/
partial def readLine (input : IO.FS.Stream) (line : ByteArray) : IO ByteArray := do
  let next ← input.read 1
  if next.isEmpty then return line
  else if next.toList == [10] then return line ++ next
  else readLine input (line ++ next)

/-- The surroundings of the process. -/
def terminal (input output errors : IO.FS.Stream) : Terminal IO where
  readFile path := do
    try return .ok (← IO.FS.readBinFile path) catch problem => return .error (fileProblem problem)
  writeFile path bytes := do
    try
      IO.FS.writeBinFile path bytes
      return .ok ()
    catch problem => return .error (fileProblem problem)
  readLine := readLine input .empty
  write bytes := do
    output.write bytes
    output.flush
  complain text := errors.putStr text
  now := do
    let now ← Std.Time.Timestamp.now
    return Float.ofInt now.toNanosecondsSinceUnixEpoch.val / 1000000000

end Lox.Main

/-- Runs the command with the arguments of the process. -/
def main (arguments : List String) : IO UInt32 := do
  match Lox.Command.Options.ofArguments arguments with
  | .error complaint =>
    IO.eprintln ("error: " ++ complaint)
    return 2
  | .ok options =>
    let terminal := Lox.Main.terminal (← IO.getStdin) (← IO.getStdout) (← IO.getStderr)
    let exit ← Lox.Command.run terminal options (Nat.pow 2 62)
    return exit.status.toUInt32
