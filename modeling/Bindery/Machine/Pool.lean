import Bindery.Machine.Constant
import Bindery.Machine.Error

/-!
The constant pool.

Equal constants share one entry. The pool has at most 65535 entries and a string
in it at most 65535 bytes, so that every count and length fits 16 bits.
-/

namespace Bindery.Machine

/-- The largest number of entries, and the largest size of a string. -/
def poolLimit : Nat := 65535

/-- The constants of a program by index. -/
structure ConstantPool where
  entries : Numbering Constant
deriving DecidableEq

namespace ConstantPool

def empty : ConstantPool := ⟨∅⟩

instance : EmptyCollection ConstantPool := ⟨empty⟩

instance : Inhabited ConstantPool := ⟨empty⟩

def size (p : ConstantPool) : Nat := p.entries.size

def toList (p : ConstantPool) : List Constant := p.entries.toList

def get? (p : ConstantPool) (index : Nat) : Option Constant := p.entries.get? index

/-- What keeps a constant out of the pool, whose other entries it differs from. -/
def obstacle? (p : ConstantPool) (c : Constant) : Option EmitError :=
  if poolLimit ≤ p.size then some (.poolFull poolLimit)
  else
    match c with
    | .string value =>
      if poolLimit < value.utf8ByteSize then
        some (.stringTooLong value.utf8ByteSize poolLimit)
      else none
    | _ => none

/-- The index of a constant, which is added if it is new. -/
def intern (p : ConstantPool) (c : Constant) : Outcome ConstantPool Nat :=
  match h : p.entries.number? c with
  | some index => ⟨p, .ok index⟩
  | none =>
    match p.obstacle? c with
    | some error => ⟨p, .error error⟩
    | none => ⟨⟨p.entries.push c ((p.entries.number?_eq_none_iff c).mp h)⟩, .ok p.size⟩

/-- Adds a constant on the way to code, which is given up if the pool refuses it. -/
def add (p : ConstantPool) (c : Constant) : Except EmitError (Nat × ConstantPool) :=
  (p.intern c).toExcept

/-- Adds a constant that is not in the pool yet. -/
def pushNew? (p : ConstantPool) (c : Constant) : Option ConstantPool :=
  match h : p.entries.number? c with
  | some _ => none
  | none => some ⟨p.entries.push c ((p.entries.number?_eq_none_iff c).mp h)⟩

/-- The bytes of a pool: the number of entries and the entries. -/
def encode (p : ConstantPool) : List UInt8 :=
  bytes16 (.ofNat p.size) ++ p.toList.flatMap Constant.encode

end ConstantPool

end Bindery.Machine
