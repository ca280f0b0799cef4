import Lox.Value

/-! # Globals

The table of global variables. Definitions create entries or overwrite them, and none is ever removed. -/

namespace Lox

/-- The global variables by name, in the order of their first definitions. Each name occurs once. -/
structure Globals where
  entries : List (String × Value) := []

namespace Globals

/-- The value of a global. -/
def get? (globals : Globals) (name : String) : Option Value := globals.entries.lookup name

/-- Whether a global is defined. -/
def contains (globals : Globals) (name : String) : Bool := (globals.get? name).isSome

/-- How many globals there are. -/
def size (globals : Globals) : Nat := globals.entries.length

/-- Overwrites the entry of a name, if there is one. -/
def overwrite (globals : Globals) (name : String) (value : Value) : Globals :=
  ⟨globals.entries.map fun entry => if entry.1 == name then (name, value) else entry⟩

/-- Creates a global or overwrites it. -/
def define (globals : Globals) (name : String) (value : Value) : Globals :=
  if globals.contains name then globals.overwrite name value else ⟨globals.entries ++ [(name, value)]⟩

/-- Overwrites a global; `none` if it is not defined. -/
def assign? (globals : Globals) (name : String) (value : Value) : Option Globals :=
  if globals.contains name then some (globals.overwrite name value) else none

end Globals

end Lox
