import Bindery.Floating.Text
import Bindery.Machine.Instruction
import Bindery.Numbering
import Bindery.Text.Quoted

/-!
Constants of a program.

Floating-point constants are bit patterns, so that two of them are equal exactly
when their bits are. A function is known by the offset of its first instruction
and the number of its parameters.
-/

namespace Bindery.Machine

inductive Constant where
  | int (value : Int32)
  | double (bits : UInt64)
  | string (value : String)
  | float (bits : UInt32)
  | long (value : Int64)
  | function (entry : UInt16) (arity : UInt8)
deriving DecidableEq, Repr, Inhabited

namespace Constant

/-- The byte that says of which kind an encoded constant is. -/
def tag : Constant → UInt8
  | .int _ => 0
  | .double _ => 1
  | .string _ => 2
  | .float _ => 3
  | .long _ => 4
  | .function _ _ => 5

/-- The bytes behind the tag. The length of a string fits 16 bits in a pool. -/
def payload : Constant → List UInt8
  | .int value => bytes32 value.toUInt32
  | .double bits => bytes64 bits
  | .string value => bytes16 (.ofNat value.utf8ByteSize) ++ value.toUTF8.toList
  | .float bits => bytes32 bits
  | .long value => bytes64 value.toUInt64
  | .function entry arity => bytes16 entry ++ [arity]

def encode (c : Constant) : List UInt8 := c.tag :: c.payload

def text : Constant → String
  | .int value => "INT " ++ toString value.toInt
  | .double bits => "DOUBLE " ++ Floating.listingStyle.text Floating.double bits.toNat
  | .string value => "STRING " ++ Text.quote value
  | .float bits => "FLOAT " ++ Floating.listingStyle.text Floating.single bits.toNat
  | .long value => "LONG " ++ toString value.toInt
  | .function entry arity =>
    "FUNCTION entry=" ++ toString entry.toNat ++ " arity=" ++ toString arity.toNat

/-- What constants are ordered by: kind and contents. -/
def key : Constant → List Nat
  | .int value => [0, value.toUInt32.toNat]
  | .double bits => [1, bits.toNat]
  | .string value => 2 :: value.toList.map Char.toNat
  | .float bits => [3, bits.toNat]
  | .long value => [4, value.toUInt64.toNat]
  | .function entry arity => [5, entry.toNat, arity.toNat]

theorem key_inj {a b : Constant} (h : a.key = b.key) : a = b := by
  have words : ∀ {x y : Int32}, x.toUInt32 = y.toUInt32 → x = y := fun {x y} e => by
    rw [← x.toInt32_toUInt32, e, y.toInt32_toUInt32]
  have longs : ∀ {x y : Int64}, x.toUInt64 = y.toUInt64 → x = y := fun {x y} e => by
    rw [← x.toInt64_toUInt64, e, y.toInt64_toUInt64]
  cases a <;> cases b <;>
    simp [key, UInt64.toNat_inj, UInt32.toNat_inj, UInt16.toNat_inj, UInt8.toNat_inj] at h ⊢
  case int.int => exact words h
  case long.long => exact longs h
  case string.string =>
    exact String.toList_inj.mp ((List.map_inj_right fun _ _ => Char.toNat_inj.mp).mp h)
  all_goals exact h

instance : Ord Constant := ⟨compareOn key⟩

instance : Std.TransOrd Constant := inferInstanceAs (Std.TransCmp (compareOn key))

instance : Std.LawfulEqOrd Constant where
  compare_self := Std.ReflOrd.compare_self
  eq_of_compare h := key_inj (Std.LawfulEqOrd.eq_of_compare h)

end Constant

end Bindery.Machine
