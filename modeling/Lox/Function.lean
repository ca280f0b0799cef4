import Lox.Number.Shortest

/-! # Functions

A compiled function: its parameter count, its name, and a chunk of code with a table of source lines and a
pool of constants, which may hold further functions. The script is the function without a name. -/

namespace Lox

/-- A routine of the host under the name by which it was defined. -/
structure Native where
  name : String
  routine : String
deriving DecidableEq, Repr

mutual

/-- An entry of a constant pool. -/
inductive Constant where
  | nil
  | bool (value : Bool)
  /-- A number by its bits, so that every NaN is kept as it is. -/
  | number (bits : UInt64)
  | string (text : String)
  | function (function : Function)
  | native (native : Native)

/-- The code of one function. In a well-formed chunk the line table has one entry for each byte of code. -/
structure Chunk where
  code : Array UInt8 := #[]
  lines : Array UInt32 := #[]
  constants : List Constant := []

/-- A compiled function. -/
structure Function where
  arity : UInt8 := 0
  chunk : Chunk
  name : Option String := none

end

instance : Inhabited Constant := ⟨.nil⟩

instance : Inhabited Chunk := ⟨{}⟩

instance : Inhabited Function := ⟨{ chunk := {} }⟩

namespace Function

/-- The name of a function in listings and in messages of the verifier. -/
def title (function : Function) : String := function.name.getD "<script>"

/-- The name of a function in the trace of a runtime error. -/
def frameName (function : Function) : String := function.name.getD "script"

/-- The text of a function as a value. -/
def text (function : Function) : String :=
  match function.name with
  | some name => "<fn " ++ name ++ ">"
  | none => "<script>"

end Function

namespace Constant

/-- The text that `print` shows. -/
def text : Constant → String
  | nil => "nil"
  | bool b => if b then "true" else "false"
  | number bits => (Number.ofBits bits).text
  | string s => s
  | function f => f.text
  | native _ => "<native fn>"

/-- The name of the type of a constant. -/
def typeName : Constant → String
  | nil => "nil"
  | bool _ => "bool"
  | number _ => "number"
  | string _ => "string"
  | function _ => "function"
  | native _ => "native"

/-- Only nil and false are falsy. -/
def isFalsy : Constant → Bool
  | nil | bool false => true
  | _ => false

/-- The text of a string constant. -/
def string? : Constant → Option String
  | string s => some s
  | _ => none

end Constant

/-! ### The functions of a program -/

mutual

/-- A function and all functions in its constants, each before those in its own constants, in the order of the
    constants. -/
def Function.all : Function → List Function
  | ⟨arity, chunk, name⟩ => ⟨arity, chunk, name⟩ :: chunk.functions

/-- The functions in the constants of a chunk, with those inside them. -/
def Chunk.functions : Chunk → List Function
  | ⟨_, _, constants⟩ => Constant.functionsOf constants

/-- The functions in a list of constants, with those inside them. -/
def Constant.functionsOf : List Constant → List Function
  | [] => []
  | constant :: constants => constant.functions ++ Constant.functionsOf constants

/-- The functions in a constant. -/
def Constant.functions : Constant → List Function
  | .function f => f.all
  | _ => []

end

end Lox
