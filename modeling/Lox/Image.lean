import Lox.Image.Encode
import Lox.Image.Decode
import Lox.Verify

/-! # Images

An image is a compiled script as a file: four marking bytes, a version, and the bytes of the script. Only a
script that verifies can be loaded. -/

namespace Lox.Image

/-- Why a script cannot be written to or loaded from an image. -/
inductive Error where
  | badMagic
  | unsupportedVersion (version : UInt16)
  /-- A routine of the host cannot be written. -/
  | encode
  | decode (problem : Problem)
  | trailingBytes (count : Nat)
  | verify (defect : Defect)
deriving DecidableEq, Repr

/-- The wording of an error. -/
def Error.message : Error → String
  | badMagic => "not a compiled image"
  | unsupportedVersion version => "unsupported image version " ++ toString version.toNat
  | encode => "failed to encode image: Serde Serialization Error"
  | decode problem => "failed to decode image: " ++ problem.message
  | trailingBytes count => "image has " ++ toString count ++ " trailing bytes"
  | verify defect => "invalid bytecode in image: " ++ defect.message

/-- The version of the format. -/
def version : UInt16 := 1

/-- The bytes of the image of a script. -/
def encode (script : Function) : Except Error (List UInt8) :=
  match script.encode? with
  | some body => .ok (0x4c :: 0x58 :: 0x42 :: 0x43 :: highByte version :: lowByte version :: body)
  | none => .error .encode

/-- Loads and verifies the script of an image. A function takes at least one byte, which bounds the nesting. -/
def decode : List UInt8 → Except Error Function
  | 0x4c :: 0x58 :: 0x42 :: 0x43 :: high :: low :: body =>
    if wordOfBytes high low = version then
      match Reader.function (body.length + 1) body with
      | .error problem => .error (.decode problem)
      | .ok (script, []) =>
        match script.verify with
        | .ok () => .ok script
        | .error defect => .error (.verify defect)
      | .ok (_, rest) => .error (.trailingBytes rest.length)
    else .error (.unsupportedVersion (wordOfBytes high low))
  | _ => .error .badMagic

end Lox.Image
