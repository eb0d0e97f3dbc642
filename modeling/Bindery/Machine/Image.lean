import Bindery.Machine.Decode

/-!
Program images: what the machine loads.

An image is the constant pool, the number of globals and the code. `encode` and
`decode` turn it into bytes and back; decoding also makes sure that the code
consists of instructions. `listing` shows an image to people.
-/

namespace Bindery.Machine

structure Image where
  constants : ConstantPool
  globalCount : UInt16
  code : List UInt8
deriving DecidableEq, Inhabited

namespace Image

def encode (image : Image) : List UInt8 :=
  image.constants.encode ++ bytes16 image.globalCount ++ image.code

/-- Reads an image; offsets in errors about the code count from its start. -/
def decode (bytes : List UInt8) : Except DecodeError Image := do
  let (constants, r) ← Reader.pool ⟨0, bytes⟩
  let (globalCount, r) ← r.word16 .globalCount
  let _ ← disassemble r.rest
  return ⟨constants, globalCount, r.rest⟩

/-- Lines with the entries of a pool, each with its index. -/
def poolLines (constants : List Constant) : List String :=
  constants.zipIdx.map fun (c, index) =>
    let number := toString index
    "  #" ++ number.pushn ' ' (4 - number.length) ++ " " ++ c.text

/-- The pool, the number of globals and the instructions, a line each. -/
def listing (image : Image) : Except DecodeError String := do
  let code ← disassemble image.code
  let lines :=
    ["constants (" ++ toString image.constants.size ++ "):"] ++
    poolLines image.constants.toList ++
    ["globals: " ++ toString image.globalCount.toNat,
      "code (" ++ toString image.code.length ++ " bytes):"] ++
    code.map fun l => "  " ++ l.text
  return String.join (lines.map (· ++ "\n"))

def readsBack (image : Image) : Bool :=
  match decode image.encode with
  | .ok other => other = image
  | .error _ => false

end Image

end Bindery.Machine
