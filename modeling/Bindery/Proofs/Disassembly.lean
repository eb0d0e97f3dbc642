import Bindery.Proofs.ImageCodec
import Bindery.Proofs.Readers
import Mathlib.Data.List.Chain

/-!
What the disassembler answers on any bytes.

An instruction is read exactly from the bytes that spell it: those of its encoding, but that the
first byte of a capture of a local can be any byte except zero (`Reader.instruction_spells`,
`Reader.instruction_eq_ok`). So code is read exactly as the instructions that tile it
(`disassembleFrom_eq_ok_iff`). Where reading fails, all code in front is read
(`disassembleFrom_eq_error`), and either an instruction begins with a byte that is no opcode or one
is cut off and can be completed. Code behind code that is read is read as on its own, only further
on. `disassemble_characterized` puts this together.
-/

namespace Bindery.Machine

/-! ### Spelled instructions -/

/-- The bytes of captures, with the first byte of each made one unless it is zero. -/
def normalizedKinds : List UInt8 → List UInt8
  | kind :: high :: low :: rest =>
    (if kind = 0 then 0 else 1) :: high :: low :: normalizedKinds rest
  | bytes => bytes

def Shape.normalized (shape : Shape) (bytes : List UInt8) : List UInt8 :=
  if shape = .captures then bytes.take 2 ++ normalizedKinds (bytes.drop 2) else bytes

/-- The bytes of an instruction, as they are written if they are read: the same, but that the
captures of a closure are told apart by zero and one. -/
def normalized : List UInt8 → List UInt8
  | [] => []
  | byte :: rest =>
    byte :: match Opcode.ofByte? byte with
      | some op => op.shape.normalized rest
      | none => rest

/-- The bytes are those of the instruction, up to normalization. -/
structure Spells (bytes : List UInt8) (i : Instruction) : Prop where
  encode_eq : i.encode = normalized bytes
  encodable : i.Encodable

theorem length_normalizedKinds (bytes : List UInt8) :
    (normalizedKinds bytes).length = bytes.length := by
  fun_induction normalizedKinds bytes with
  | case1 _ _ _ _ ih => simp [ih]
  | case2 => rfl

theorem Shape.length_normalized (shape : Shape) (bytes : List UInt8) :
    (shape.normalized bytes).length = bytes.length := by
  unfold Shape.normalized
  split
  · rw [List.length_append, length_normalizedKinds, ← List.length_append, List.take_append_drop]
  · rfl

theorem normalized_byte (op : Opcode) (rest : List UInt8) :
    normalized (op.byte :: rest) = op.byte :: op.shape.normalized rest := by
  rw [normalized, Opcode.ofByte?_byte]

theorem length_normalized (bytes : List UInt8) : (normalized bytes).length = bytes.length := by
  cases bytes with
  | nil => rfl
  | cons =>
    rw [normalized, List.length_cons, List.length_cons]
    split
    · rw [Shape.length_normalized]
    · rfl

variable {bytes piece rest : List UInt8} {i : Instruction} {e : DecodeError} {l : Located}
    {start : Nat}

/-- An instruction is spelt by as many bytes as its size says. -/
theorem Spells.length_eq (h : Spells bytes i) : bytes.length = i.size := by
  rw [← length_normalized, ← h.encode_eq, i.length_encode]

theorem normalizedKinds_capture (kind : UInt8) (index : UInt16) (rest : List UInt8) :
    normalizedKinds (kind :: (bytes16 index ++ rest)) =
      Capture.encode ⟨kind != 0, index⟩ ++ normalizedKinds rest := by
  have first : (if kind = 0 then 0 else 1 : UInt8) = if kind != 0 then 1 else 0 := by
    by_cases zero : kind = 0 <;> simp [zero]
  rw [Capture.encode, ← first]
  rfl

/-- What begins like a capture after normalization is the bytes of this capture. -/
theorem capture_of_normalizedKinds {c : Capture} {taken : List UInt8}
    (same : c.encode ++ bytes = normalizedKinds taken) :
    ∃ kind rest, taken = kind :: (bytes16 c.index ++ rest) ∧ (kind != 0) = c.isLocal ∧
      bytes = normalizedKinds rest := by
  have front : c.encode = (if c.isLocal then 1 else 0) :: bytes16 c.index := rfl
  have word : ∃ high low, bytes16 c.index = [high, low] := ⟨_, _, rfl⟩
  obtain ⟨high, low, word⟩ := word
  rw [front, word] at same
  rw [word]
  fun_cases normalizedKinds taken with
  | case1 kind _ _ rest =>
    simp only [List.cons_append, List.nil_append, normalizedKinds, List.cons.injEq] at same
    obtain ⟨first, rfl, rfl, tail⟩ := same
    refine ⟨kind, rest, rfl, ?_, tail⟩
    by_cases zero : kind = 0 <;> cases isLocal : c.isLocal <;> simp_all
  | case2 =>
    rename_i short
    rw [normalizedKinds.eq_2 _ short] at same
    exact absurd same.symm (short _ _ _ _)

namespace Opcode

variable {byte : UInt8}

/-- An opcode is read from its own byte. -/
theorem byte_of_ofByte? {op : Opcode} (known : ofByte? byte = some op) : op.byte = byte := by
  have small : ∀ n < 31, ∀ op, all[n]? = some op → op.byte.toNat = n := by decide
  unfold ofByte? at known
  have within : byte.toNat < 31 := (List.getElem?_eq_some_iff.mp known).1
  exact UInt8.toNat_inj.mp (small byte.toNat within op known)

/-- All bytes below 31 are opcodes. -/
theorem le_of_ofByte?_eq_none (unknown : ofByte? byte = none) : 31 ≤ byte.toNat :=
  List.getElem?_eq_none_iff.mp unknown

end Opcode

namespace Reader

variable {done : List Capture} {taken : List UInt8} {r : Reader} {shape : Shape} {i : Instruction}
    {byte : UInt8}

/-- Captures that are read are those that the bytes spell. -/
theorem captures_eq_ok {n offset : Nat} {list : List Capture}
    (run : captures n done ⟨offset, bytes⟩ = .ok (list, r)) :
    ∃ cs taken, list = done.reverse ++ cs ∧ cs.length = n ∧ bytes = taken ++ r.rest ∧
      cs.flatMap Capture.encode = normalizedKinds taken := by
  induction n generalizing offset done bytes with
  | zero =>
    cases run
    exact ⟨[], [], (List.append_nil _).symm, rfl, rfl, rfl⟩
  | succ _ ih =>
    simp only [captures, except_bind_eq_ok] at run
    obtain ⟨⟨kind, next⟩, kindRead, ⟨index, next'⟩, indexRead, run⟩ := run
    obtain ⟨cs, taken, rfl, rfl, split, same⟩ := ih run
    have front := word8_eq_ok kindRead
    rw [word16_eq_ok indexRead, split] at front
    refine ⟨⟨kind != 0, index⟩ :: cs, kind :: (bytes16 index ++ taken), by simp, rfl, ?_, ?_⟩
    · simpa using front
    · rw [normalizedKinds_capture, List.flatMap_cons, same]

theorem captures_normalized {cs : List Capture} (offset : Nat)
    (same : cs.flatMap Capture.encode = normalizedKinds taken) (rest : List UInt8) :
    captures cs.length done ⟨offset, taken ++ rest⟩ =
      .ok (done.reverse ++ cs, ⟨offset + taken.length, rest⟩) := by
  induction cs generalizing done taken offset with
  | nil =>
    have length := congrArg List.length same
    rw [length_normalizedKinds] at length
    obtain rfl := List.eq_nil_of_length_eq_zero length.symm
    simp [captures]
  | cons c _ ih =>
    obtain ⟨kind, behind, rfl, isLocal, same⟩ := capture_of_normalizedKinds same
    rw [List.length_cons, captures, List.cons_append, word8_cons, List.append_assoc]
    simp only [bind, Except.bind, word16_bytes16, isLocal]
    have length : (kind :: (bytes16 c.index ++ behind)).length = 3 + behind.length := by
      rw [List.length_cons, List.length_append, bytes16, length_bytesOf]
      omega
    rw [ih _ same, length, ← Nat.add_assoc, List.reverse_cons, List.append_assoc]
    rfl

/-- An operand that is read is the one that the bytes spell. -/
theorem operand_eq_ok {offset : Nat} {x : { operand : Operand // operand.shape = shape }}
    (run : operand ⟨offset, bytes⟩ shape = .ok (x, r)) :
    ∃ taken, bytes = taken ++ r.rest ∧ x.1.encode = shape.normalized taken ∧
      ∀ cs, x.1 = .captures cs → cs.length < 65536 := by
  cases shape with
  | none =>
    cases run
    exact ⟨[], rfl, rfl, by simp⟩
  | captures =>
    simp only [operand, except_bind_eq_ok, except_pure_eq_ok] at run
    obtain ⟨⟨n, next⟩, read, ⟨list, next'⟩, listRead, same⟩ := run
    cases same
    obtain ⟨cs, taken, rfl, count, split, same⟩ := captures_eq_ok listRead
    have front : bytes = bytes16 n ++ next.rest := word16_eq_ok read
    have two : (bytes16 n).length = 2 := length_bytesOf ..
    refine ⟨bytes16 n ++ taken, ?_, ?_, ?_⟩
    · rw [front, split, List.append_assoc]
    · simp only [Operand.encode, Shape.normalized, if_true, List.take_left' two,
        List.drop_left' two, same, count, UInt16.ofNat_toNat]
    · intro cs same
      cases same
      exact count ▸ n.toNat_lt
  | _ =>
    simp only [operand, except_bind_eq_ok, except_pure_eq_ok] at run
    obtain ⟨⟨value, next⟩, read, same⟩ := run
    cases same
    exact ⟨bytes16 value, word16_eq_ok read, by simp [Operand.encode, Shape.normalized], by simp⟩

theorem operand_normalized {operand : Operand} (layout : operand.shape = shape)
    (encodable : ∀ cs, operand = .captures cs → cs.length < 65536)
    (same : operand.encode = shape.normalized taken) (offset : Nat) (rest : List UInt8) :
    Reader.operand ⟨offset, taken ++ rest⟩ shape =
      .ok (⟨operand, layout⟩, ⟨offset + operand.size, rest⟩) := by
  by_cases captured : shape = .captures
  · subst captured
    cases operand with
    | captures cs =>
      have length := congrArg List.length same
      rw [Operand.length_encode, Shape.length_normalized, Operand.size] at length
      -- The two bytes of the number of captures are the same, and so are those behind them.
      rw [Operand.encode, Shape.normalized, if_pos rfl] at same
      have two : (bytes16 (.ofNat cs.length)).length = (taken.take 2).length := by
        rw [bytes16, length_bytesOf, List.length_take]
        omega
      obtain ⟨count, kinds⟩ := List.append_inj same two
      have read := word16_bytes16 offset .captureCount (.ofNat cs.length) (taken.drop 2 ++ rest)
      rw [count, ← List.append_assoc, List.take_append_drop] at read
      have number : (UInt16.ofNat cs.length).toNat = cs.length := by simpa using encodable cs rfl
      simp only [Reader.operand, read, bind, Except.bind, number, captures_normalized _ kinds]
      have size : offset + 2 + (taken.drop 2).length = offset + (2 + 3 * cs.length) := by
        rw [List.length_drop]
        omega
      rw [size]
      rfl
    | _ => cases layout
  · rw [Shape.normalized, if_neg captured] at same
    rw [← same, operand_encode layout encodable]

/-- The bytes that spell an instruction are read as it. -/
theorem instruction_spells (h : Spells piece i) (offset : Nat) (rest : List UInt8) :
    instruction ⟨offset, piece ++ rest⟩ = .ok (i, ⟨offset + i.size, rest⟩) := by
  obtain ⟨same, encodable⟩ := h
  cases piece with
  | nil => cases same
  | cons byte =>
    obtain rfl : i.opcode.byte = byte := (List.cons.inj same).1
    rw [normalized_byte] at same
    have read := operand_normalized i.shape_eq encodable (List.cons.inj same).2 (offset + 1) rest
    simp only [List.cons_append, instruction, word8_cons, bind, Except.bind,
      Opcode.ofByte?_byte, read]
    simp [Instruction.size, pure, Except.pure, Nat.add_assoc]

/-- An instruction is read only from bytes that spell it. -/
theorem instruction_eq_ok {offset : Nat} (run : instruction ⟨offset, bytes⟩ = .ok (i, r)) :
    ∃ piece, bytes = piece ++ r.rest ∧ r.offset = offset + i.size ∧ Spells piece i := by
  suffices spelled : ∃ piece, bytes = piece ++ r.rest ∧ Spells piece i by
    obtain ⟨piece, rfl, h⟩ := spelled
    have same := (instruction_spells h offset r.rest).symm.trans run
    exact ⟨piece, rfl, (congrArg (fun x => x.2.offset) (Except.ok.inj same)).symm, h⟩
  simp only [instruction, except_bind_eq_ok] at run
  obtain ⟨⟨byte, next⟩, byteRead, run⟩ := run
  split at run
  · cases run
  · rename_i op known
    simp only [except_bind_eq_ok, except_pure_eq_ok] at run
    obtain ⟨⟨operand, last⟩, operandRead, same⟩ := run
    cases same
    obtain ⟨taken, split, written, encodable⟩ := operand_eq_ok operandRead
    obtain rfl := Opcode.byte_of_ofByte? known
    refine ⟨op.byte :: taken, ?_, ?_, encodable⟩
    · rw [List.cons_append, ← split]
      exact word8_eq_ok byteRead
    · rw [normalized_byte, ← written]
      rfl

def body (op : Opcode) : Reading Instruction := fun r =>
  r.operand op.shape >>= fun x => .ok (⟨op, x.1.1, x.1.2⟩, x.2)

theorem steady_body (op : Opcode) : Reading.Steady (body op) :=
  (steady_operand op.shape).andThen fun x => .done (⟨op, x.1, x.2⟩ : Instruction)

theorem instruction_byte (op : Opcode) (offset : Nat) (rest : List UInt8) :
    instruction ⟨offset, op.byte :: rest⟩ = body op ⟨offset + 1, rest⟩ := by
  simp only [instruction, word8_cons, bind, Except.bind, Opcode.ofByte?_byte, body]
  rfl

/-- A byte that is no opcode is reported where it stands. -/
theorem instruction_unknown (unknown : Opcode.ofByte? byte = none) (offset : Nat)
    (rest : List UInt8) :
    instruction ⟨offset, byte :: rest⟩ = .error (.unknownOpcode byte offset) := by
  simp only [instruction, word8_cons, bind, Except.bind, unknown]

/-- Further on, an instruction is read alike. -/
theorem instruction_moves (k offset : Nat) (byte : UInt8) (rest : List UInt8) :
    instruction ⟨offset + k, byte :: rest⟩ =
      Reading.shift k (instruction ⟨offset, byte :: rest⟩) := by
  cases known : Opcode.ofByte? byte with
  | none =>
    rw [instruction_unknown known, instruction_unknown known]
    rfl
  | some op =>
    obtain rfl := Opcode.byte_of_ofByte? known
    rw [instruction_byte, instruction_byte, ← (steady_body op).moves, Nat.add_right_comm]

/-- An instruction that is not read has no opcode, or it is cut off and further bytes complete it.
-/
theorem instruction_eq_error {offset : Nat} (run : instruction ⟨offset, byte :: rest⟩ = .error e) :
    (31 ≤ byte.toNat ∧ e = .unknownOpcode byte offset) ∨
      e.isTruncated = true ∧
        ∃ more i r, instruction ⟨offset, byte :: rest ++ more⟩ = .ok (i, r) ∧ r.rest = [] := by
  cases known : Opcode.ofByte? byte with
  | none =>
    rw [instruction_unknown known] at run
    exact .inl ⟨Opcode.le_of_ofByte?_eq_none known, (Except.error.inj run).symm⟩
  | some op =>
    obtain rfl := Opcode.byte_of_ofByte? known
    rw [instruction_byte] at run
    obtain ⟨truncated, more, i, r, mended, atEnd⟩ := (steady_body op).mends run
    rw [← instruction_byte] at mended
    exact .inr ⟨truncated, more, i, r, mended, atEnd⟩

end Reader

/-! ### Code, instruction by instruction -/

variable {offset : Nat} {code : List UInt8} {listing : List Located}

/-- What was read before is only put in front. -/
theorem disassembleFrom_done (offset skip : Nat) (done : List Located) (code : List UInt8) :
    disassembleFrom offset skip done code =
      (disassembleFrom offset skip [] code).map (done.reverse ++ ·) := by
  induction code generalizing offset skip done with
  | nil => simp [disassembleFrom, Except.map]
  | cons byte rest ih =>
    cases skip with
    | succ skip => exact ih (offset + 1) skip done
    | zero =>
      rw [disassembleFrom, disassembleFrom]
      cases Reader.instruction ⟨offset, byte :: rest⟩ with
      | error => rfl
      | ok x =>
        simp only
        rw [ih _ _ (⟨offset, x.1⟩ :: done), ih _ _ [⟨offset, x.1⟩]]
        cases disassembleFrom (offset + 1) (x.1.size - 1) [] rest with
        | error => rfl
        | ok => simp [Except.map]

/-- Reading goes on behind an instruction that is read. -/
theorem disassembleFrom_spells (h : Spells piece i) (offset : Nat) (rest : List UInt8) :
    disassembleFrom offset 0 [] (piece ++ rest) =
      (disassembleFrom (offset + i.size) 0 [] rest).map (⟨offset, i⟩ :: ·) := by
  have run := Reader.instruction_spells h offset rest
  have length := h.length_eq
  have size := i.size_pos
  cases piece with
  | nil =>
    rw [List.length_nil] at length
    omega
  | cons _ tail =>
    rw [List.length_cons] at length
    have skipped : i.size - 1 = tail.length := by omega
    have place : offset + 1 + tail.length = offset + i.size := by omega
    rw [List.cons_append] at run ⊢
    rw [disassembleFrom, run]
    simp only
    rw [skipped, disassembleFrom_skip, place, disassembleFrom_done]
    rfl

theorem disassembleFrom_of_error {byte : UInt8}
    (run : Reader.instruction ⟨offset, byte :: rest⟩ = .error e) :
    disassembleFrom offset 0 [] (byte :: rest) = .error e := by
  rw [disassembleFrom, run]

/-- Bytes are none, or begin with an instruction, or begin with something that is not read. -/
theorem code_cases (offset : Nat) (code : List UInt8) :
    code = [] ∨ (∃ piece i rest, code = piece ++ rest ∧ Spells piece i) ∨
      ∃ byte rest e, code = byte :: rest ∧ Reader.instruction ⟨offset, code⟩ = .error e := by
  cases code with
  | nil => exact .inl rfl
  | cons byte rest =>
    cases run : Reader.instruction ⟨offset, byte :: rest⟩ with
    | error e => exact .inr (.inr ⟨byte, rest, e, rfl, rfl⟩)
    | ok x =>
      obtain ⟨piece, split, _, h⟩ := Reader.instruction_eq_ok run
      exact .inr (.inl ⟨piece, x.1, x.2.rest, split, h⟩)

theorem disassembleFrom_eq_nil : disassembleFrom offset 0 [] code = .ok [] ↔ code = [] := by
  refine ⟨fun run => ?_, fun none => by rw [none]; rfl⟩
  rcases code_cases offset code with rfl | ⟨piece, i, rest, rfl, h⟩ | ⟨byte, rest, e, rfl, failed⟩
  · rfl
  · rw [disassembleFrom_spells h, except_map_eq_ok] at run
    obtain ⟨_, _, same⟩ := run
    cases same
  · rw [disassembleFrom_of_error failed] at run
    cases run

/-- Code is read as an instruction and the code behind it. -/
theorem disassembleFrom_eq_cons :
    disassembleFrom offset 0 [] code = .ok (l :: listing) ↔
      l.offset = offset ∧ ∃ piece rest, code = piece ++ rest ∧ Spells piece l.instruction ∧
        disassembleFrom l.stop 0 [] rest = .ok listing := by
  constructor
  · intro run
    rcases code_cases offset code with rfl | ⟨piece, i, rest, rfl, h⟩ | ⟨byte, rest, e, rfl, failed⟩
    · cases run
    · rw [disassembleFrom_spells h, except_map_eq_ok] at run
      obtain ⟨_, behind, same⟩ := run
      cases same
      exact ⟨rfl, piece, rest, rfl, h, behind⟩
    · rw [disassembleFrom_of_error failed] at run
      cases run
  · rintro ⟨rfl, piece, rest, rfl, h, behind⟩
    rw [disassembleFrom_spells h, ← Located.stop, behind]
    rfl

/-- Behind code that is read, reading goes on. -/
theorem disassembleFrom_append (run : disassembleFrom offset 0 [] code = .ok listing)
    (more : List UInt8) :
    disassembleFrom offset 0 [] (code ++ more) =
      (disassembleFrom (offset + code.length) 0 [] more).map (listing ++ ·) := by
  induction listing generalizing offset code with
  | nil =>
    rw [disassembleFrom_eq_nil.mp run, List.nil_append, List.length_nil, Nat.add_zero]
    cases disassembleFrom offset 0 [] more <;> rfl
  | cons l _ ih =>
    obtain ⟨rfl, piece, rest, rfl, h, behind⟩ := disassembleFrom_eq_cons.mp run
    have place : l.stop + rest.length = l.offset + (piece ++ rest).length := by
      rw [List.length_append, h.length_eq, Located.stop, Nat.add_assoc]
    rw [List.append_assoc, disassembleFrom_spells h, ← Located.stop, ih behind, place]
    cases disassembleFrom (l.offset + (piece ++ rest).length) 0 [] more <;> rfl

/-- Where reading fails, the code in front is read. -/
theorem disassembleFrom_eq_error (run : disassembleFrom offset 0 [] code = .error e) :
    ∃ front listing byte rest, code = front ++ byte :: rest ∧
      disassembleFrom offset 0 [] front = .ok listing ∧
      Reader.instruction ⟨offset + front.length, byte :: rest⟩ = .error e := by
  -- What is behind an instruction is shorter, by as many bytes as the instruction has.
  induction length : code.length using Nat.strongRecOn generalizing offset code with
  | ind n ih =>
    rcases code_cases offset code with
      rfl | ⟨piece, i, rest, rfl, h⟩ | ⟨byte, rest, e', rfl, failed⟩
    · cases run
    · have size := h.length_eq
      have fewer : rest.length < n := by
        rw [← length, List.length_append, size]
        exact Nat.lt_add_of_pos_left i.size_pos
      rw [disassembleFrom_spells h, except_map_eq_error] at run
      obtain ⟨front, listing, byte, last, rfl, read, failed⟩ := ih _ fewer run rfl
      refine ⟨piece ++ front, ⟨offset, i⟩ :: listing, byte, last, by rw [List.append_assoc], ?_, ?_⟩
      · rw [disassembleFrom_spells h, read]
        rfl
      · rw [List.length_append, size, ← Nat.add_assoc]
        exact failed
    · rw [disassembleFrom_of_error failed] at run
      cases run
      exact ⟨[], [], byte, rest, rfl, rfl, failed⟩

/-! ### Code at another place -/

def Located.shift (k : Nat) (l : Located) : Located := ⟨l.offset + k, l.instruction⟩

def shiftAnswer (k : Nat) :
    Except DecodeError (List Located) → Except DecodeError (List Located)
  | .ok listing => .ok (listing.map (Located.shift k))
  | .error e => .error (e.shift k)

theorem Located.stop_shift (k : Nat) (l : Located) : (l.shift k).stop = l.stop + k :=
  Nat.add_right_comm ..

/-- A jump leads as much further as it is moved. -/
theorem Located.target?_shift (k : Nat) (l : Located) :
    (l.shift k).target? = l.target?.map (· + (k : Int)) := by
  have same : (l.shift k).instruction.operand = l.instruction.operand := rfl
  unfold Located.target?
  rw [Located.stop_shift, same]
  cases l.instruction.operand with
  | jump =>
    simp only [Option.map_some]
    congr 1
    omega
  | _ => rfl

/-- Code is read alike further on. -/
theorem disassembleFrom_shift (run : disassembleFrom offset 0 [] code = .ok listing) (k : Nat) :
    disassembleFrom (offset + k) 0 [] code = .ok (listing.map (Located.shift k)) := by
  induction listing generalizing offset code with
  | nil => exact disassembleFrom_eq_nil.mpr (disassembleFrom_eq_nil.mp run)
  | cons _ _ ih =>
    obtain ⟨rfl, piece, rest, rfl, h, behind⟩ := disassembleFrom_eq_cons.mp run
    refine disassembleFrom_eq_cons.mpr ⟨rfl, piece, rest, rfl, h, ?_⟩
    rw [Located.stop_shift]
    exact ih behind

/-- Further on, the same answer is given at other offsets. -/
theorem disassembleFrom_moves (k offset : Nat) (code : List UInt8) :
    disassembleFrom (offset + k) 0 [] code = shiftAnswer k (disassembleFrom offset 0 [] code) := by
  cases run : disassembleFrom offset 0 [] code with
  | ok => exact disassembleFrom_shift run k
  | error =>
    obtain ⟨front, listing, byte, rest, rfl, read, failed⟩ := disassembleFrom_eq_error run
    have moved := Reader.instruction_moves k (offset + front.length) byte rest
    rw [failed, Nat.add_right_comm] at moved
    rw [disassembleFrom_append (disassembleFrom_shift read k), disassembleFrom_of_error moved]
    rfl

/-! ### Tilings -/

/-- The instructions make up the code that starts at `start`: the first one is at the start and
each next one at the end of the one before, their sizes add up to all of the code, and the bytes
in the place of each one spell it. -/
structure TilesFrom (start : Nat) (code : List UInt8) (listing : List Located) : Prop where
  first : ∀ l ∈ listing.head?, l.offset = start
  next : listing.IsChain fun l m => m.offset = l.stop
  sizes : total (fun l => l.instruction.size) listing = code.length
  spelled : ∀ l ∈ listing,
    Spells ((code.drop (l.offset - start)).take l.instruction.size) l.instruction

theorem le_offset_of_mem (first : ∀ l ∈ listing.head?, l.offset = start)
    (next : listing.IsChain fun l m => m.offset = l.stop) : ∀ l ∈ listing, start ≤ l.offset := by
  induction listing generalizing start with
  | nil => exact fun l mem => absurd mem List.not_mem_nil
  | cons l _ ih =>
    intro m mem
    have place : l.offset = start := first l rfl
    obtain ⟨behind, chain⟩ := List.isChain_cons.mp next
    rcases List.mem_cons.mp mem with rfl | later
    · exact Nat.le_of_eq place.symm
    · have further := ih behind chain m later
      rw [Located.stop] at further
      omega

/-- Behind an instruction, places are counted from its end. -/
theorem Located.offset_sub {m : Located} (behind : l.stop ≤ m.offset) :
    m.offset - l.offset = l.instruction.size + (m.offset - l.stop) := by
  rw [Located.stop] at behind ⊢
  omega

theorem tilesFrom_nil : TilesFrom start code [] ↔ code = [] := by
  constructor
  · intro h
    exact List.eq_nil_of_length_eq_zero h.sizes.symm
  · rintro rfl
    exact ⟨by simp, .nil, rfl, by simp⟩

/-- The first instruction tiles the front, the others what is behind. -/
theorem tilesFrom_cons :
    TilesFrom start code (l :: listing) ↔
      l.offset = start ∧ ∃ piece rest, code = piece ++ rest ∧ Spells piece l.instruction ∧
        TilesFrom l.stop rest listing := by
  constructor
  · rintro ⟨first, next, sizes, spelled⟩
    obtain rfl : l.offset = start := first l rfl
    obtain ⟨behind, chain⟩ := List.isChain_cons.mp next
    rw [total_cons] at sizes
    have own := spelled l List.mem_cons_self
    rw [Nat.sub_self, List.drop_zero] at own
    refine ⟨rfl, _, _, (List.take_append_drop l.instruction.size code).symm, own, behind, chain, ?_,
      fun m mem => ?_⟩
    · rw [List.length_drop]
      omega
    · rw [List.drop_drop, ← Located.offset_sub (le_offset_of_mem behind chain m mem)]
      exact spelled m (List.mem_cons_of_mem _ mem)
  · rintro ⟨rfl, piece, rest, rfl, own, first, next, sizes, spelled⟩
    have length := own.length_eq
    refine ⟨fun m head => ?_, List.isChain_cons.mpr ⟨first, next⟩, ?_, fun m mem => ?_⟩
    · cases head
      rfl
    · rw [total_cons, sizes, List.length_append, length]
    · rcases List.mem_cons.mp mem with rfl | later
      · rw [Nat.sub_self, List.drop_zero, List.take_left' length]
        exact own
      · rw [Located.offset_sub (le_offset_of_mem first next m later), ← List.drop_drop,
          List.drop_left' length]
        exact spelled m later

/-- Code is read as the instructions that make it up. -/
theorem disassembleFrom_eq_ok_iff :
    disassembleFrom offset 0 [] code = .ok listing ↔ TilesFrom offset code listing := by
  induction listing generalizing offset code with
  | nil => exact disassembleFrom_eq_nil.trans tilesFrom_nil.symm
  | cons _ _ ih => simp only [disassembleFrom_eq_cons, tilesFrom_cons, ih]

/-! ### The answers of a disassembler -/

def Readable (code : List UInt8) : Prop := ∃ listing, disassemble code = .ok listing

/-- What bytes can be as code: instructions from the first to the last byte, or something in which
a byte that is no opcode stands where an instruction should start, or the beginning of such code. -/
inductive Verdict where
  | whole (listing : List Located)
  | foreign (byte : UInt8) (offset : Nat)
  | cut (part : Part) (offset : Nat)

def Verdict.answer : Verdict → Except DecodeError (List Located)
  | .whole listing => .ok listing
  | .foreign byte offset => .error (.unknownOpcode byte offset)
  | .cut part offset => .error (.truncated part offset)

/-- The verdict is what the disassembler answers, and it is right. -/
def Verdict.Holds (code : List UInt8) (v : Verdict) : Prop :=
  disassemble code = v.answer ∧
    match v with
    | .whole listing => TilesFrom 0 code listing
    | .foreign byte offset =>
      code[offset]? = some byte ∧ 31 ≤ byte.toNat ∧ Readable (code.take offset)
    | .cut .. => ¬Readable code ∧ ∃ more, Readable (code ++ more)

/-- Verdicts are told apart by their answers. -/
theorem Verdict.answer_inj {v w : Verdict} (same : v.answer = w.answer) : v = w := by
  cases v <;> cases w <;> simp_all [Verdict.answer]

/-- Code that can be read can be put together. -/
theorem Readable.append {a b : List UInt8} (front : Readable a) (back : Readable b) :
    Readable (a ++ b) := by
  obtain ⟨listing, run⟩ := front
  obtain ⟨more, run'⟩ := back
  have moved := disassembleFrom_shift run' a.length
  have whole := disassembleFrom_append run b
  rw [moved] at whole
  exact ⟨_, whole⟩

theorem Spells.readable (h : Spells piece i) : Readable piece := by
  have run := disassembleFrom_spells h 0 []
  rw [List.append_nil] at run
  exact ⟨[⟨0, i⟩], run⟩

/-- There is a verdict on every code. -/
theorem exists_verdict (code : List UInt8) : ∃ v : Verdict, v.Holds code := by
  cases run : disassemble code with
  | ok listing => exact ⟨.whole listing, run, disassembleFrom_eq_ok_iff.mp run⟩
  | error =>
    obtain ⟨front, listing, byte, rest, rfl, read, failed⟩ := disassembleFrom_eq_error run
    rw [Nat.zero_add] at failed
    rcases Reader.instruction_eq_error failed with
      ⟨large, rfl⟩ | ⟨truncated, more, i, r, mended, atEnd⟩
    · refine ⟨.foreign byte front.length, run, ?_, large, ?_⟩
      · simp
      · rw [List.take_left]
        exact ⟨listing, read⟩
    · obtain ⟨part, offset, rfl⟩ := DecodeError.isTruncated_iff.mp truncated
      refine ⟨.cut part offset, run, ?_, more, ?_⟩
      · rintro ⟨_, read⟩
        rw [run] at read
        cases read
      · obtain ⟨piece, split, _, h⟩ := Reader.instruction_eq_ok mended
        rw [atEnd, List.append_nil] at split
        rw [List.append_assoc, split]
        exact Readable.append ⟨listing, read⟩ h.readable

/-- For all bytes exactly one verdict holds, code is read whenever instructions tile it, and code
behind code that is read is read as on its own: with all offsets, those in errors and those that
jumps lead to, moved by the length of what is in front. -/
theorem disassemble_characterized :
    (∀ code, ∃! v : Verdict, v.Holds code) ∧
    (∀ code listing, TilesFrom 0 code listing → disassemble code = .ok listing) ∧
    (∀ a b listing, disassemble a = .ok listing →
      disassemble (a ++ b) = (shiftAnswer a.length (disassemble b)).map (listing ++ ·)) ∧
    ∀ (k : Nat) (l : Located), (l.shift k).target? = l.target?.map (· + (k : Int)) := by
  refine ⟨fun code => ?_, fun code listing => disassembleFrom_eq_ok_iff.mpr,
    fun a b listing run => ?_, Located.target?_shift⟩
  · obtain ⟨v, holds⟩ := exists_verdict code
    exact ⟨v, holds, fun w other => Verdict.answer_inj (other.1.symm.trans holds.1)⟩
  · rw [disassemble, disassembleFrom_append run, disassembleFrom_moves]
    rfl

/-- A closure over a local, which is marked by a byte other than one. -/
def markedClosure : List UInt8 := [28, 0, 1, 7, 0, 3]

theorem markedClosure_disassembled :
    TilesFrom 0 markedClosure [⟨0, .closure [⟨true, 3⟩]⟩] ∧
    disassemble markedClosure = .ok [⟨0, .closure [⟨true, 3⟩]⟩] ∧
    disassemble (markedClosure ++ [4, 0, 2]) =
      .ok [⟨0, .closure [⟨true, 3⟩]⟩, ⟨6, .goto 2⟩] ∧
    disassemble (markedClosure ++ [4, 0, 2, 99]) = .error (.unknownOpcode 99 9) ∧
    (⟨6, .goto 2⟩ : Located).target? = some 11 := by
  have tiles : TilesFrom 0 markedClosure [⟨0, .closure [⟨true, 3⟩]⟩] := by
    refine ⟨by simp, .singleton _, rfl, fun l mem => ?_⟩
    obtain rfl := List.mem_singleton.mp mem
    refine ⟨rfl, fun cs same => ?_⟩
    cases same
    decide
  obtain ⟨_, read, behind, moved⟩ := disassemble_characterized
  have whole := read _ _ tiles
  exact ⟨tiles, whole, (behind _ _ _ whole).trans (by decide +kernel),
    (behind _ _ _ whole).trans (by decide +kernel), moved 6 ⟨0, .goto 2⟩⟩

end Bindery.Machine
