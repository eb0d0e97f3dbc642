import Bindery.Machine.Pool

/-!
Reading code and constants from bytes.

A reader goes through bytes from the front and knows its offset. Every part of an
instruction or a constant that is cut off is reported with the offset at which it
should have started. `disassemble` succeeds only on bytes that are instructions
from the first to the last.
-/

namespace Bindery.Machine

/-- Where reading has come to: the offset and the bytes from there on. -/
structure Reader where
  offset : Nat
  rest : List UInt8
deriving DecidableEq, Repr, Inhabited

namespace Reader

/-- The next `n` bytes. -/
def take (r : Reader) (part : Part) (n : Nat) : Except DecodeError (List UInt8 × Reader) :=
  match r.rest.splitAt n with
  | (front, rest) =>
    if front.length = n then .ok (front, ⟨r.offset + n, rest⟩)
    else .error (.truncated part r.offset)

def number (r : Reader) (part : Part) (n : Nat) : Except DecodeError (Nat × Reader) := do
  let (bytes, r) ← r.take part n
  return (ofBytes bytes, r)

def word8 (r : Reader) (part : Part) : Except DecodeError (UInt8 × Reader) := do
  let (n, r) ← r.number part 1
  return (.ofNat n, r)

def word16 (r : Reader) (part : Part) : Except DecodeError (UInt16 × Reader) := do
  let (n, r) ← r.number part 2
  return (.ofNat n, r)

def word32 (r : Reader) (part : Part) : Except DecodeError (UInt32 × Reader) := do
  let (n, r) ← r.number part 4
  return (.ofNat n, r)

def word64 (r : Reader) (part : Part) : Except DecodeError (UInt64 × Reader) := do
  let (n, r) ← r.number part 8
  return (.ofNat n, r)

/-- The next `n` captures; those read before are in `done`, the newest first. A
capture is of a local unless its first byte is zero. -/
def captures : Nat → List Capture → Reader → Except DecodeError (List Capture × Reader)
  | 0, done, r => .ok (done.reverse, r)
  | n + 1, done, r => do
    let (kind, r) ← r.word8 .captureKind
    let (index, r) ← r.word16 .captureIndex
    captures n (⟨kind != 0, index⟩ :: done) r

def operand (r : Reader) (shape : Shape) :
    Except DecodeError ({ operand : Operand // operand.shape = shape } × Reader) :=
  match shape with
  | .none => .ok (⟨.none, rfl⟩, r)
  | .jump => do
    let (word, r) ← r.word16 .jumpOffset
    return (⟨.jump word.toInt16, rfl⟩, r)
  | .index => do
    let (word, r) ← r.word16 .index
    return (⟨.index word, rfl⟩, r)
  | .count => do
    let (word, r) ← r.word16 .count
    return (⟨.count word, rfl⟩, r)
  | .captures => do
    let (n, r) ← r.word16 .captureCount
    let (list, r) ← captures n.toNat [] r
    return (⟨.captures list, rfl⟩, r)

def instruction (r : Reader) : Except DecodeError (Instruction × Reader) := do
  let (byte, next) ← r.word8 .opcode
  match Opcode.ofByte? byte with
  | none => .error (.unknownOpcode byte r.offset)
  | some opcode => do
    let (operand, next) ← next.operand opcode.shape
    return (⟨opcode, operand.1, operand.2⟩, next)

def payload (r : Reader) (start : Nat) (tag : UInt8) : Except DecodeError (Constant × Reader) :=
  match tag with
  | 0 => do
    let (word, r) ← r.word32 .int
    return (.int word.toInt32, r)
  | 1 => do
    let (word, r) ← r.word64 .double
    return (.double word, r)
  | 2 => do
    let (size, r) ← r.word16 .stringLength
    let (bytes, next) ← r.take .string size.toNat
    match String.fromUTF8? ⟨bytes.toArray⟩ with
    | some text => return (.string text, next)
    | none => .error (.invalidText r.offset)
  | 3 => do
    let (word, r) ← r.word32 .float
    return (.float word, r)
  | 4 => do
    let (word, r) ← r.word64 .long
    return (.long word.toInt64, r)
  | 5 => do
    let (entry, r) ← r.word16 .functionEntry
    let (arity, r) ← r.word8 .functionArity
    return (.function entry arity, r)
  | tag => .error (.unknownTag tag start)

def constant (r : Reader) : Except DecodeError (Constant × Reader) := do
  let (tag, next) ← r.word8 .constantTag
  next.payload r.offset tag

/-- The next `n` constants, added to a pool in which none of them may be. -/
def constants : Nat → ConstantPool → Reader → Except DecodeError (ConstantPool × Reader)
  | 0, pool, r => .ok (pool, r)
  | n + 1, pool, r => do
    let (c, next) ← r.constant
    match pool.pushNew? c with
    | some pool => constants n pool next
    | none => .error (.duplicateConstant r.offset)

def pool (r : Reader) : Except DecodeError (ConstantPool × Reader) := do
  let (n, r) ← r.word16 .constantCount
  constants n.toNat ∅ r

end Reader

/-- Reads a pool from the front of `bytes`, and says how many of them it took. -/
def decodePool (bytes : List UInt8) : Except DecodeError (ConstantPool × Nat) := do
  let (pool, r) ← Reader.pool ⟨0, bytes⟩
  return (pool, r.offset)

/-- The instructions from `offset` on, behind `skip` bytes that belong to the
instruction before. Those read already are in `done`, the newest first. -/
def disassembleFrom (offset skip : Nat) (done : List Located) :
    List UInt8 → Except DecodeError (List Located)
  | [] => .ok done.reverse
  | byte :: rest =>
    match skip with
    | skip + 1 => disassembleFrom (offset + 1) skip done rest
    | 0 =>
      match Reader.instruction ⟨offset, byte :: rest⟩ with
      | .error e => .error e
      | .ok (i, _) => disassembleFrom (offset + 1) (i.size - 1) (⟨offset, i⟩ :: done) rest

def disassemble (code : List UInt8) : Except DecodeError (List Located) :=
  disassembleFrom 0 0 [] code

end Bindery.Machine
