import Lox.Machine

/-! # Command-line options -/

namespace Lox

namespace Command

/-- What the command line asks for. -/
structure Options where
  /-- The source or image to run; without one, lines are read and run in turn. -/
  script : Option String := none
  /-- List the tokens in place of running. -/
  tokens : Bool := false
  noColor : Bool := false
  pretty : Bool := false
  /-- List the code before running. -/
  disasm : Bool := false
  /-- Write an image to this path in place of running. -/
  emit : Option String := none
  limits : Limits := {}
deriving DecidableEq, Repr

namespace Options

/-- The options that take a value. -/
def valued : List String := ["--emit", "--max-frames", "--max-steps"]

/-- Splits an option from a value that is joined to it by an equals sign. -/
def separate (argument : String) : List String :=
  let (name, rest) := argument.toList.span (· != '=')
  if valued.contains (String.ofList name) ∧ rest ≠ [] then [String.ofList name, String.ofList (rest.drop 1)]
  else [argument]

/-- Reads a natural number of 64 bits, with or without a plus sign. -/
def number (text : String) : Except String Nat :=
  let digits := match text.toList with
    | '+' :: digits => digits
    | digits => digits
  if digits ≠ [] ∧ digits.all Char.isDigit then
    let n := digits.foldl (fun n c => 10 * n + (c.toNat - '0'.toNat)) 0
    if n < UInt64.size then .ok n else .error ("number too large: " ++ text)
  else .error ("invalid number: '" ++ text ++ "'")

/-- Whether an argument stands for itself: neither empty nor a minus sign with something after it. -/
def isPlain (argument : String) : Bool := argument != "" && (argument == "-" || !argument.startsWith "-")

/-- Adds the options of the arguments, in which options and values are separate. -/
def read (options : Options) : List String → Except String Options
  | [] => .ok options
  | "--tokens" :: rest => { options with tokens := true }.read rest
  | "--no-color" :: rest => { options with noColor := true }.read rest
  | "--pretty" :: rest => { options with pretty := true }.read rest
  | "--disasm" :: rest | "--bc" :: rest => { options with disasm := true }.read rest
  | "--emit" :: path :: rest =>
    if path = "" then .error "the path of an image is empty"
    else { options with emit := some path }.read rest
  | "--max-frames" :: value :: rest => do
    let n ← number value
    { options with limits.maxFrames := n }.read rest
  | "--max-steps" :: value :: rest => do
    let n ← number value
    { options with limits.maxSteps := some n }.read rest
  | argument :: rest =>
    if isPlain argument ∧ options.script.isNone then { options with script := some argument }.read rest
    else .error ("unexpected argument '" ++ argument ++ "'")

/-- The options of a command line. -/
def ofArguments (arguments : List String) : Except String Options :=
  Options.read {} (arguments.flatMap separate)

end Options

end Command

end Lox
