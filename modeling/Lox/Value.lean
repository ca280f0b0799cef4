import Lox.Function

/-! # Values

The values of a running program. Functions and routines of the host are objects: two of them are equal only if
they are one and the same, whatever they hold. An object is known by where it came from. -/

namespace Lox

/-- Where an object came from: the script or definition that brought it into the machine, and the way to it
    through constant pools. -/
structure ObjectId where
  origin : Nat
  /-- Indices of constants, the last one first. -/
  path : List Nat := []
deriving DecidableEq, Repr

/-- The object in the constant with the given index of the function `id`. -/
def ObjectId.child (id : ObjectId) (index : Nat) : ObjectId := { id with path := index :: id.path }

/-- A value of a running program. -/
inductive Value where
  | nil
  | bool (value : Bool)
  | number (value : Float)
  | string (text : String)
  | function (id : ObjectId) (function : Function)
  | native (id : ObjectId) (native : Native)

instance : Inhabited Value := ⟨.nil⟩

/-- A constant as a value. The object `id` is used if the constant holds one. -/
def Constant.load (id : ObjectId) : Constant → Value
  | .nil => .nil
  | .bool b => .bool b
  | .number bits => .number (Float.ofBits bits)
  | .string s => .string s
  | .function f => .function id f
  | .native n => .native id n

namespace Value

/-- A value without its identity. -/
def plain : Value → Constant
  | nil => .nil
  | bool b => .bool b
  | number x => .number x.toBits
  | string s => .string s
  | function _ f => .function f
  | native _ n => .native n

/-- The text that `print` shows. -/
def text (value : Value) : String := value.plain.text

/-- The name of the type of a value. -/
def typeName (value : Value) : String := value.plain.typeName

/-- Only nil and false are falsy. -/
def isFalsy : Value → Bool
  | nil | bool false => true
  | _ => false

/-- The number that a value is. -/
def number? : Value → Option Float
  | number x => some x
  | _ => none

/-- The text of a string. -/
def string? : Value → Option String
  | string s => some s
  | _ => none

/-- Equality as the program sees it: values of different types differ, strings are equal by content, a NaN
    differs from itself, and objects are equal if they are the same. -/
def equal : Value → Value → Bool
  | nil, nil => true
  | bool a, bool b => a == b
  | number x, number y => x == y
  | string s, string t => s == t
  | function i _, function j _ => i == j
  | native i _, native j _ => i == j
  | _, _ => false

end Value

end Lox
