import Bindery.Machine.Decode
import Bindery.Proofs.Layout

/-!
Encoded instructions are read back.

Each reader takes exactly the bytes that the matching encoder wrote and leaves the
rest (`Reader.word16_bytes16`, `Reader.instruction_encode`). Hence code is read
back as its instructions, each at its offset (`disassemble_encodeAll`). The only
limit is the number of captures of one instruction, which is written with 16 bits.
-/

namespace Bindery.Machine

/-! ### Words -/

theorem foldl_bytesOf (n value start : Nat) :
    (bytesOf n value).foldl (fun value byte => value * 256 + byte.toNat) start =
      start * Nat.pow 256 n + value % Nat.pow 256 n := by
  induction n generalizing start with
  | zero => simp [bytesOf, Nat.mod_one]
  | succ n ih =>
    have split : value % Nat.pow 256 (n + 1) =
        value % Nat.pow 256 n + Nat.pow 256 n * (value / Nat.pow 256 n % 256) := Nat.mod_mul
    have power : Nat.pow 256 (n + 1) = 256 * Nat.pow 256 n := Nat.mul_comm ..
    have byte : (UInt8.ofNat (value / Nat.pow 256 n)).toNat = value / Nat.pow 256 n % 256 :=
      UInt8.toNat_ofNat'
    rw [bytesOf, List.foldl_cons, ih, byte, split, power, Nat.add_mul, Nat.mul_assoc,
      Nat.mul_comm (Nat.pow 256 n) (value / Nat.pow 256 n % 256)]
    omega

/-- A number that fits is that of its bytes. -/
theorem ofBytes_bytesOf {n value : Nat} (fits : value < Nat.pow 256 n) :
    ofBytes (bytesOf n value) = value := by
  rw [ofBytes, foldl_bytesOf, Nat.mod_eq_of_lt fits]
  omega

namespace Reader

/-- The bytes in front are taken and the others left. -/
theorem take_append (offset : Nat) (part : Part) {n : Nat} {front : List UInt8}
    (length : front.length = n) (rest : List UInt8) :
    take ⟨offset, front ++ rest⟩ part n = .ok (front, ⟨offset + n, rest⟩) := by
  subst length
  simp [take]

theorem number_bytesOf (offset : Nat) (part : Part) {n value : Nat} (fits : value < Nat.pow 256 n)
    (rest : List UInt8) :
    number ⟨offset, bytesOf n value ++ rest⟩ part n = .ok (value, ⟨offset + n, rest⟩) := by
  rw [number, take_append offset part (length_bytesOf n value)]
  exact congrArg (fun v => Except.ok (v, (⟨offset + n, rest⟩ : Reader))) (ofBytes_bytesOf fits)

theorem word8_cons (offset : Nat) (part : Part) (word : UInt8) (rest : List UInt8) :
    word8 ⟨offset, word :: rest⟩ part = .ok (word, ⟨offset + 1, rest⟩) := by
  have one : word :: rest = bytesOf 1 word.toNat ++ rest := by simp [bytesOf]
  rw [word8, one, number_bytesOf offset part word.toNat_lt]
  exact congrArg (fun w => Except.ok (w, (⟨offset + 1, rest⟩ : Reader))) (UInt8.ofNat_toNat ..)

/-- A word is read back. -/
theorem word16_bytes16 (offset : Nat) (part : Part) (word : UInt16) (rest : List UInt8) :
    word16 ⟨offset, bytes16 word ++ rest⟩ part = .ok (word, ⟨offset + 2, rest⟩) := by
  rw [word16, bytes16, number_bytesOf offset part word.toNat_lt]
  exact congrArg (fun w => Except.ok (w, (⟨offset + 2, rest⟩ : Reader))) (UInt16.ofNat_toNat ..)

/-! ### Instructions -/

/-- Captures are read back, one after the other. -/
theorem captures_encode (captures : List Capture) (done : List Capture) (offset : Nat)
    (rest : List UInt8) :
    Reader.captures captures.length done ⟨offset, captures.flatMap Capture.encode ++ rest⟩ =
      .ok (done.reverse ++ captures, ⟨offset + 3 * captures.length, rest⟩) := by
  induction captures generalizing done offset with
  | nil => simp [Reader.captures]
  | cons c others ih =>
    have front : (c :: others).flatMap Capture.encode ++ rest =
        (if c.isLocal then 1 else 0) ::
          (bytes16 c.index ++ (others.flatMap Capture.encode ++ rest)) := by
      simp [Capture.encode]
    have kind : ((if c.isLocal then 1 else 0 : UInt8) != 0) = c.isLocal := by
      cases c.isLocal <;> rfl
    rw [List.length_cons, Reader.captures, front, word8_cons]
    simp only [bind, Except.bind, word16_bytes16, kind]
    rw [ih]
    simp [Nat.add_assoc, Nat.mul_add, Nat.add_comm]

end Reader

/-- An instruction whose operand can be written: the number of its captures has 16
bits. -/
def Instruction.Encodable (i : Instruction) : Prop :=
  ∀ captures, i.operand = .captures captures → captures.length < 65536

namespace Reader

/-- An operand is read back. -/
theorem operand_encode {operand : Operand} {shape : Shape} (layout : operand.shape = shape)
    (encodable : ∀ captures, operand = .captures captures → captures.length < 65536)
    (offset : Nat) (rest : List UInt8) :
    Reader.operand ⟨offset, operand.encode ++ rest⟩ shape =
      .ok (⟨operand, layout⟩, ⟨offset + operand.size, rest⟩) := by
  subst layout
  cases operand with
  | none => rfl
  | jump =>
    simp only [Operand.shape, Operand.encode, Reader.operand, word16_bytes16, bind, Except.bind]
    simp [Operand.size, pure, Except.pure]
  | index | count =>
    simp only [Operand.shape, Operand.encode, Reader.operand, word16_bytes16, bind, Except.bind]
    rfl
  | captures cs =>
    have count : (UInt16.ofNat cs.length).toNat = cs.length := by
      simpa using encodable cs rfl
    simp only [Operand.shape, Operand.encode, Reader.operand, List.append_assoc, word16_bytes16,
      bind, Except.bind, count, captures_encode]
    simp [Operand.size, pure, Except.pure, Nat.add_assoc]

/-- An instruction is read back, and nothing behind it is read. -/
theorem instruction_encode {i : Instruction} (encodable : i.Encodable) (offset : Nat)
    (rest : List UInt8) :
    Reader.instruction ⟨offset, i.encode ++ rest⟩ = .ok (i, ⟨offset + i.size, rest⟩) := by
  simp only [Instruction.encode, List.cons_append, Reader.instruction, word8_cons, bind,
    Except.bind, Opcode.ofByte?_byte, operand_encode i.shape_eq encodable]
  simp [Instruction.size, pure, Except.pure, Nat.add_assoc]

end Reader

/-! ### Code -/

/-- Bytes that belong to an instruction are skipped. -/
theorem disassembleFrom_skip (offset : Nat) (done : List Located) (bytes rest : List UInt8) :
    disassembleFrom offset bytes.length done (bytes ++ rest) =
      disassembleFrom (offset + bytes.length) 0 done rest := by
  induction bytes generalizing offset with
  | nil => rfl
  | cons _ _ ih =>
    rw [List.length_cons, List.cons_append, disassembleFrom, ih]
    congr 1
    omega

/-- Reading an encoded instruction goes on behind it. -/
theorem disassembleFrom_encode {i : Instruction} (encodable : i.Encodable) (offset : Nat)
    (done : List Located) (rest : List UInt8) :
    disassembleFrom offset 0 done (i.encode ++ rest) =
      disassembleFrom (offset + i.size) 0 (⟨offset, i⟩ :: done) rest := by
  have read := Reader.instruction_encode encodable offset rest
  have length : i.operand.encode.length = i.size - 1 := by
    rw [Operand.length_encode, Instruction.size]
    omega
  rw [Instruction.encode, List.cons_append] at read ⊢
  rw [disassembleFrom, read]
  simp only
  rw [← length, disassembleFrom_skip, length]
  congr 1
  have := i.size_pos
  omega

/-- Code is read back as its instructions, each at its offset. -/
theorem disassembleFrom_encodeAll {code : List Instruction}
    (encodable : ∀ i ∈ code, i.Encodable) (offset : Nat) (done : List Located) :
    disassembleFrom offset 0 done (encodeAll code) = .ok (done.reverse ++ locate offset code) := by
  induction code generalizing offset done with
  | nil => simp [encodeAll, disassembleFrom, locate]
  | cons i rest ih =>
    have first := encodable i List.mem_cons_self
    have others : ∀ j ∈ rest, j.Encodable := fun j mem => encodable j (List.mem_cons_of_mem _ mem)
    rw [encodeAll, List.flatMap_cons, disassembleFrom_encode first, ← encodeAll, ih others]
    simp [locate]

/-- Code is read back as its instructions, from the first byte to the last. -/
theorem disassemble_encodeAll {code : List Instruction} (encodable : ∀ i ∈ code, i.Encodable) :
    disassemble (encodeAll code) = .ok (locate 0 code) :=
  disassembleFrom_encodeAll encodable 0 []

end Bindery.Machine
