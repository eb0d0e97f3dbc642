import Bindery.Machine.Error
import Bindery.Machine.Instruction

/-!
Buffers of code under construction.

Code is written at the end. A jump whose target is not known yet is written with
a placeholder distance and patched later; patching overwrites the two bytes of
the operand and nothing else. What can fail tells the buffer that it leaves. The
view is `toList`.
-/

namespace Bindery.Machine

/-- Code under construction. -/
structure CodeBuffer where
  bytes : Array UInt8
deriving DecidableEq, Repr, Inhabited

namespace CodeBuffer

def empty : CodeBuffer := ⟨#[]⟩

instance : EmptyCollection CodeBuffer := ⟨empty⟩

def size (b : CodeBuffer) : Nat := b.bytes.size

def isEmpty (b : CodeBuffer) : Bool := b.bytes.isEmpty

def toList (b : CodeBuffer) : List UInt8 := b.bytes.toList

def putBytes (b : CodeBuffer) (bytes : List UInt8) : CodeBuffer := ⟨b.bytes.appendList bytes⟩

@[simp] theorem toList_putBytes (b : CodeBuffer) (bytes : List UInt8) :
    (b.putBytes bytes).toList = b.toList ++ bytes := by
  simp [putBytes, toList]

def put8 (b : CodeBuffer) (word : UInt8) : CodeBuffer := b.putBytes [word]

def put16 (b : CodeBuffer) (word : UInt16) : CodeBuffer := b.putBytes (bytes16 word)

def put32 (b : CodeBuffer) (word : UInt32) : CodeBuffer := b.putBytes (bytes32 word)

def put64 (b : CodeBuffer) (word : UInt64) : CodeBuffer := b.putBytes (bytes64 word)

def putOpcode (b : CodeBuffer) (op : Opcode) : CodeBuffer := b.put8 op.byte

def putIndexed (b : CodeBuffer) (op : Opcode) (what : Quantity) (operand : Nat) :
    Outcome CodeBuffer Unit :=
  .check b (toWord16 what operand) fun word => ⟨(b.putOpcode op).put16 word, .ok ()⟩

/-- The distance of a jump whose operand stands at `operand`, as a difference of
64-bit words. -/
def distanceTo (operand target : Nat) : Except EmitError Int16 :=
  toDistance (Int64.ofNat target - (Int64.ofNat operand + 2)).toInt

/-- What stands for a distance that is not known yet. -/
def placeholder : Int16 := 32767

/-- Writes a jump without its target, and gives the offset of its operand. -/
def putJump (b : CodeBuffer) (op : Opcode) : Nat × CodeBuffer :=
  (b.size + 1, (b.putOpcode op).put16 placeholder.toUInt16)

def putJumpTo (b : CodeBuffer) (op : Opcode) (target : Nat) : Outcome CodeBuffer Unit :=
  .check b (distanceTo (b.size + 1) target) fun distance =>
    ⟨(b.putOpcode op).put16 distance.toUInt16, .ok ()⟩

/-- Overwrites the two bytes at `offset`. -/
def set16 (b : CodeBuffer) (offset : Nat) (word : UInt16) : Outcome CodeBuffer Unit :=
  if offset + 2 ≤ b.size then
    ⟨⟨(b.bytes.setIfInBounds offset (.ofNat (word.toNat / 256))).setIfInBounds (offset + 1)
      (.ofNat word.toNat)⟩, .ok ()⟩
  else
    ⟨b, .error (.patchOutOfBounds offset b.size)⟩

/-- Points the jump whose operand stands at `operand` to `target`. -/
def patchJump (b : CodeBuffer) (operand target : Nat) : Outcome CodeBuffer Unit :=
  .check b (distanceTo operand target) fun distance => b.set16 operand distance.toUInt16

/-- Points the jump whose operand stands at `operand` to the end of the code. -/
def patchHere (b : CodeBuffer) (operand : Nat) : Outcome CodeBuffer Unit :=
  b.patchJump operand b.size

end CodeBuffer

end Bindery.Machine
