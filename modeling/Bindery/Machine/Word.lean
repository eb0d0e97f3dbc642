/-!
Words as bytes, the most significant byte first.
-/

namespace Bindery.Machine

/-- The low `n` bytes of a number. -/
def bytesOf : (n : Nat) → Nat → List UInt8
  | 0, _ => []
  | n + 1, value => UInt8.ofNat (value / Nat.pow 256 n) :: bytesOf n value

def ofBytes (bytes : List UInt8) : Nat :=
  bytes.foldl (fun value byte => value * 256 + byte.toNat) 0

@[simp] theorem length_bytesOf (n value : Nat) : (bytesOf n value).length = n := by
  induction n with
  | zero => rfl
  | succ n ih => simp [bytesOf, ih]

def bytes16 (word : UInt16) : List UInt8 := bytesOf 2 word.toNat

def bytes32 (word : UInt32) : List UInt8 := bytesOf 4 word.toNat

def bytes64 (word : UInt64) : List UInt8 := bytesOf 8 word.toNat

end Bindery.Machine
