import Bindery.Proofs.Contents
import Bindery.Proofs.WellFormed
import Mathlib.Data.List.Induction

/-!
Images and their bytes.

Each reader takes exactly what the matching encoder wrote, and what a reader has taken is
what the encoder writes for the value it gave (`Reader.word16_eq_ok`,
`Reader.constant_eq_ok`). A pool that `ConstantPool.intern` builds is small enough to be
written, and these are the only pools that are read (`ConstantPool.exists_addAll_iff`). So
every image that can be loaded has one written form, and every byte string is the written
form of at most one image (`Image.decode_iff_encode`).
-/

namespace Bindery.Machine

/-! ### Words -/

theorem ofBytes_append_singleton (bytes : List UInt8) (byte : UInt8) :
    ofBytes (bytes ++ [byte]) = ofBytes bytes * 256 + byte.toNat := by
  simp [ofBytes]

theorem bytesOf_succ (n value : Nat) :
    bytesOf (n + 1) value = bytesOf n (value / 256) ++ [UInt8.ofNat value] := by
  induction n with
  | zero => simp [bytesOf]
  | succ n ih =>
    have shifted : value / Nat.pow 256 (n + 1) = value / 256 / Nat.pow 256 n := by
      rw [Nat.div_div_eq_div_mul]
      exact congrArg (value / ·) (Nat.mul_comm ..)
    rw [bytesOf, ih, shifted]
    rfl

/-- Bytes are those of the number that they stand for. -/
theorem bytesOf_ofBytes (bytes : List UInt8) : bytesOf bytes.length (ofBytes bytes) = bytes := by
  induction bytes using List.reverseRecOn with
  | nil => rfl
  | append_singleton front byte ih =>
    have small := byte.toNat_lt
    have high : (ofBytes front * 256 + byte.toNat) / 256 = ofBytes front := by omega
    have low : UInt8.ofNat (ofBytes front * 256 + byte.toNat) = byte := by
      apply UInt8.toNat_inj.mp
      rw [UInt8.toNat_ofNat']
      omega
    rw [List.length_append, List.length_singleton, bytesOf_succ, ofBytes_append_singleton, high,
      low, ih]

theorem ofBytes_lt (bytes : List UInt8) : ofBytes bytes < Nat.pow 256 bytes.length := by
  induction bytes using List.reverseRecOn with
  | nil => decide
  | append_singleton front byte =>
    have small := byte.toNat_lt
    have power : Nat.pow 256 (front.length + 1) = Nat.pow 256 front.length * 256 := rfl
    rw [List.length_append, List.length_singleton, ofBytes_append_singleton, power]
    omega

namespace Reader

variable {r r' : Reader} {part : Part} {n : Nat}

/-- What is taken is the front of what was there. -/
theorem take_eq_ok {front : List UInt8} (run : r.take part n = .ok (front, r')) :
    r.rest = front ++ r'.rest ∧ front.length = n := by
  unfold take at run
  rw [List.splitAt_eq] at run
  simp only at run
  split at run
  · rename_i enough
    cases run
    exact ⟨(List.take_append_drop n r.rest).symm, enough⟩
  · cases run

/-- A number is read from its own bytes only. -/
theorem number_eq_ok {value : Nat} (run : r.number part n = .ok (value, r')) :
    r.rest = bytesOf n value ++ r'.rest ∧ value < Nat.pow 256 n := by
  simp only [number, except_bind_eq_ok, except_pure_eq_ok] at run
  obtain ⟨⟨front, next⟩, taken, same⟩ := run
  cases same
  obtain ⟨split, rfl⟩ := take_eq_ok taken
  rw [bytesOf_ofBytes]
  exact ⟨split, ofBytes_lt front⟩

theorem word8_eq_ok {word : UInt8} (run : r.word8 part = .ok (word, r')) :
    r.rest = word :: r'.rest := by
  simp only [word8, except_bind_eq_ok, except_pure_eq_ok] at run
  obtain ⟨⟨value, next⟩, taken, same⟩ := run
  cases same
  rw [(number_eq_ok taken).1]
  simp [bytesOf]

/-- A word is read from its own bytes only. -/
theorem word16_eq_ok {word : UInt16} (run : r.word16 part = .ok (word, r')) :
    r.rest = bytes16 word ++ r'.rest := by
  simp only [word16, except_bind_eq_ok, except_pure_eq_ok] at run
  obtain ⟨⟨value, next⟩, taken, same⟩ := run
  cases same
  obtain ⟨split, fits⟩ := number_eq_ok taken
  rw [split, bytes16, UInt16.toNat_ofNat_of_lt' fits]

theorem word32_eq_ok {word : UInt32} (run : r.word32 part = .ok (word, r')) :
    r.rest = bytes32 word ++ r'.rest := by
  simp only [word32, except_bind_eq_ok, except_pure_eq_ok] at run
  obtain ⟨⟨value, next⟩, taken, same⟩ := run
  cases same
  obtain ⟨split, fits⟩ := number_eq_ok taken
  rw [split, bytes32, UInt32.toNat_ofNat_of_lt' fits]

theorem word64_eq_ok {word : UInt64} (run : r.word64 part = .ok (word, r')) :
    r.rest = bytes64 word ++ r'.rest := by
  simp only [word64, except_bind_eq_ok, except_pure_eq_ok] at run
  obtain ⟨⟨value, next⟩, taken, same⟩ := run
  cases same
  obtain ⟨split, fits⟩ := number_eq_ok taken
  rw [split, bytes64, UInt64.toNat_ofNat_of_lt' fits]

theorem word32_bytes32 (offset : Nat) (part : Part) (word : UInt32) (rest : List UInt8) :
    word32 ⟨offset, bytes32 word ++ rest⟩ part = .ok (word, ⟨offset + 4, rest⟩) := by
  rw [word32, bytes32, number_bytesOf offset part word.toNat_lt]
  exact congrArg (fun w => Except.ok (w, (⟨offset + 4, rest⟩ : Reader))) (UInt32.ofNat_toNat ..)

theorem word64_bytes64 (offset : Nat) (part : Part) (word : UInt64) (rest : List UInt8) :
    word64 ⟨offset, bytes64 word ++ rest⟩ part = .ok (word, ⟨offset + 8, rest⟩) := by
  rw [word64, bytes64, number_bytesOf offset part word.toNat_lt]
  exact congrArg (fun w => Except.ok (w, (⟨offset + 8, rest⟩ : Reader))) (UInt64.ofNat_toNat ..)

end Reader

/-! ### Text -/

theorem toList_loop_eq (bytes : ByteArray) (i : Nat) (done : List UInt8) :
    ByteArray.toList.loop bytes i done = done.reverse ++ bytes.data.toList.drop i := by
  fun_induction ByteArray.toList.loop bytes i done with
  | case1 i _ within ih =>
    have within' : i < bytes.data.toList.length := within
    have get : bytes.get! i = bytes.data.toList[i] := getElem!_pos bytes.data i within
    rw [ih, List.drop_eq_getElem_cons within', List.reverse_cons, get]
    simp
  | case2 i _ past =>
    have past' : bytes.data.toList.length ≤ i := Nat.le_of_not_lt past
    rw [List.drop_eq_nil_of_le past', List.append_nil]

theorem toList_eq_data (bytes : ByteArray) : bytes.toList = bytes.data.toList := by
  rw [ByteArray.toList, toList_loop_eq]
  rfl

theorem length_toUTF8 (text : String) : text.toUTF8.toList.length = text.utf8ByteSize := by
  rw [toList_eq_data]
  rfl

/-- A text is read back from its bytes. -/
theorem fromUTF8_toUTF8 (text : String) :
    String.fromUTF8? ⟨text.toUTF8.toList.toArray⟩ = some text := by
  have same : (⟨text.toUTF8.toList.toArray⟩ : ByteArray) = text.toByteArray := by
    rw [toList_eq_data]
    rfl
  rw [same, String.fromUTF8?, dif_pos text.isValidUTF8]
  rfl

variable {bytes : List UInt8} {image : Image} {cs : List Constant}

/-- Bytes that are read as a text are those of the text. -/
theorem toUTF8_of_fromUTF8 {text : String} (read : String.fromUTF8? ⟨bytes.toArray⟩ = some text) :
    text.toUTF8.toList = bytes := by
  unfold String.fromUTF8? at read
  split at read
  · cases read
    rw [toList_eq_data]
    rfl
  · cases read

/-! ### Constants -/

/-- A constant that can be written: the size of a string fits 16 bits. -/
def Constant.Storable (c : Constant) : Prop :=
  ∀ text, c = .string text → text.utf8ByteSize ≤ poolLimit

namespace Reader

variable {c : Constant} {r r' : Reader}

/-- The payload of a constant that can be written is read back. -/
theorem payload_encode (storable : c.Storable) (start offset : Nat) (rest : List UInt8) :
    Reader.payload ⟨offset, c.payload ++ rest⟩ start c.tag =
      .ok (c, ⟨offset + c.payload.length, rest⟩) := by
  cases c with
  | int | float =>
    simp only [Constant.tag, Constant.payload, payload, word32_bytes32, bind, Except.bind]
    simp [bytes32, pure, Except.pure]
  | double | long =>
    simp only [Constant.tag, Constant.payload, payload, word64_bytes64, bind, Except.bind]
    simp [bytes64, pure, Except.pure]
  | string text =>
    have fits : text.utf8ByteSize < 65536 := Nat.lt_succ_of_le (storable text rfl)
    have size : (UInt16.ofNat text.utf8ByteSize).toNat = text.utf8ByteSize :=
      UInt16.toNat_ofNat_of_lt' fits
    have taken := take_append (offset + 2) .string (length_toUTF8 text) rest
    simp only [Constant.tag, Constant.payload, payload, List.append_assoc, word16_bytes16, size,
      taken, fromUTF8_toUTF8, bind, Except.bind, List.length_append, length_toUTF8]
    simp [bytes16, pure, Except.pure, Nat.add_assoc]
  | function =>
    simp only [Constant.tag, Constant.payload, payload, List.append_assoc, word16_bytes16,
      List.singleton_append, word8_cons, bind, Except.bind]
    simp [bytes16, pure, Except.pure, Nat.add_assoc]

/-- A constant that can be written is read back. -/
theorem constant_encode (storable : c.Storable) (offset : Nat) (rest : List UInt8) :
    Reader.constant ⟨offset, c.encode ++ rest⟩ = .ok (c, ⟨offset + c.encode.length, rest⟩) := by
  simp only [Constant.encode, List.cons_append, Reader.constant, word8_cons, bind, Except.bind,
    payload_encode storable]
  simp [Nat.add_assoc, Nat.add_comm]

/-- A constant is read from its own tag and payload only. -/
theorem payload_eq_ok {start : Nat} {tag : UInt8} (run : r.payload start tag = .ok (c, r')) :
    tag = c.tag ∧ r.rest = c.payload ++ r'.rest ∧ c.Storable := by
  unfold payload at run
  split at run
  · simp only [except_bind_eq_ok, except_pure_eq_ok] at run
    obtain ⟨⟨word, next⟩, read, same⟩ := run
    cases same
    exact ⟨rfl, by simpa [Constant.payload] using word32_eq_ok read, nofun⟩
  · simp only [except_bind_eq_ok, except_pure_eq_ok] at run
    obtain ⟨⟨word, next⟩, read, same⟩ := run
    cases same
    exact ⟨rfl, word64_eq_ok read, nofun⟩
  · simp only [except_bind_eq_ok] at run
    obtain ⟨⟨size, next⟩, counted, ⟨bytes, next'⟩, taken, ending⟩ := run
    obtain ⟨split, length⟩ := take_eq_ok taken
    cases read : String.fromUTF8? ⟨bytes.toArray⟩ with
    | none =>
      rw [read] at ending
      cases ending
    | some text =>
      rw [read] at ending
      cases ending
      have written := toUTF8_of_fromUTF8 read
      have same : text.utf8ByteSize = size.toNat := by
        rw [← length_toUTF8, written, length]
      refine ⟨rfl, ?_, ?_⟩
      · rw [word16_eq_ok counted, split, Constant.payload, written, same, UInt16.ofNat_toNat,
          List.append_assoc]
      · rintro _ ⟨⟩
        rw [same]
        exact Nat.le_of_lt_succ size.toNat_lt
  · simp only [except_bind_eq_ok, except_pure_eq_ok] at run
    obtain ⟨⟨word, next⟩, read, same⟩ := run
    cases same
    exact ⟨rfl, word32_eq_ok read, nofun⟩
  · simp only [except_bind_eq_ok, except_pure_eq_ok] at run
    obtain ⟨⟨word, next⟩, read, same⟩ := run
    cases same
    exact ⟨rfl, by simpa [Constant.payload] using word64_eq_ok read, nofun⟩
  · simp only [except_bind_eq_ok, except_pure_eq_ok] at run
    obtain ⟨⟨entry, next⟩, read, ⟨arity, next'⟩, read', same⟩ := run
    cases same
    refine ⟨rfl, ?_, nofun⟩
    rw [word16_eq_ok read, word8_eq_ok read', Constant.payload, List.append_assoc]
    rfl
  · cases run

/-- A constant that was read stands there as it is written. -/
theorem constant_eq_ok (run : r.constant = .ok (c, r')) :
    r.rest = c.encode ++ r'.rest ∧ c.Storable := by
  simp only [constant, except_bind_eq_ok] at run
  obtain ⟨⟨tag, next⟩, read, ending⟩ := run
  obtain ⟨rfl, behind, storable⟩ := payload_eq_ok ending
  refine ⟨?_, storable⟩
  rw [word8_eq_ok read, behind]
  rfl

end Reader

/-! ### Pools -/

namespace ConstantPool

variable {p q : ConstantPool} {c : Constant}

@[ext] theorem ext (same : p.toList = q.toList) : p = q := by
  cases p
  cases q
  exact congrArg mk (Numbering.ext same)

theorem number?_eq_none : p.entries.number? c = none ↔ c ∉ p.toList := by
  rw [Numbering.number?_eq_none_iff, toList, Numbering.toList, List.mem_reverse]

theorem length_toList (p : ConstantPool) : p.toList.length = p.size := p.entries.length_toList

/-- An entry is none of those in front of it. -/
theorem not_mem_of_toList_eq {rest : List Constant} (list : q.toList = p.toList ++ c :: rest) :
    c ∉ p.toList := by
  intro mem
  have distinct : (p.toList ++ c :: rest).Nodup := list ▸ q.entries.nodup_toList
  exact (List.nodup_append.mp distinct).2.2 c mem c List.mem_cons_self rfl

theorem pushNew?_of_not_mem (absent : c ∉ p.toList) :
    ∃ q, p.pushNew? c = some q ∧ q.toList = p.toList ++ [c] := by
  unfold pushNew?
  split
  · rename_i index known
    exact absurd (List.mem_of_getElem? ((p.entries.number?_eq_some_iff c index).mp known)) absent
  · rename_i fresh
    exact ⟨_, rfl, Numbering.toList_push _ _ ((p.entries.number?_eq_none_iff c).mp fresh)⟩

theorem toList_of_pushNew? (run : p.pushNew? c = some q) : q.toList = p.toList ++ [c] := by
  unfold pushNew? at run
  split at run
  · cases run
  · rename_i fresh
    cases run
    exact Numbering.toList_push _ _ ((p.entries.number?_eq_none_iff c).mp fresh)

/-- Nothing stands in the way of a constant that can be written while there is room. -/
theorem obstacle?_eq_none_iff : p.obstacle? c = none ↔ p.size < poolLimit ∧ c.Storable := by
  unfold obstacle?
  split
  · rename_i full
    simp [Nat.not_lt.mpr full]
  · rename_i room
    cases c with
    | string text =>
      by_cases long : poolLimit < text.utf8ByteSize
      · simp [long, Constant.Storable]
      · simp [long, Constant.Storable, Nat.lt_of_not_le room, Nat.le_of_not_lt long]
    | _ => simp [Constant.Storable, Nat.lt_of_not_le room]

/-- A constant that is in the pool changes nothing, a new one goes to its end, and one that
does not fit is refused. -/
theorem intern_cases (p : ConstantPool) (c : Constant) :
    (c ∈ p.toList ∧ ∃ index, p.intern c = ⟨p, .ok index⟩) ∨
    (c ∉ p.toList ∧ p.size < poolLimit ∧ c.Storable ∧
      ∃ index q, p.intern c = ⟨q, .ok index⟩ ∧ q.toList = p.toList ++ [c]) ∨
    (c ∉ p.toList ∧ ¬(p.size < poolLimit ∧ c.Storable) ∧
      ∃ err, p.intern c = ⟨p, .error err⟩) := by
  unfold intern
  split
  · rename_i index known
    have present := (p.entries.number?_eq_some_iff c index).mp known
    exact .inl ⟨List.mem_of_getElem? present, index, rfl⟩
  · rename_i fresh
    have absent := number?_eq_none.mp fresh
    split
    · rename_i err stopped
      have unfit : ¬(p.size < poolLimit ∧ c.Storable) := by
        rw [← obstacle?_eq_none_iff, stopped]
        exact nofun
      exact .inr (.inr ⟨absent, unfit, err, rfl⟩)
    · rename_i free
      obtain ⟨room, storable⟩ := obstacle?_eq_none_iff.mp free
      have list := Numbering.toList_push _ _ ((p.entries.number?_eq_none_iff c).mp fresh)
      exact .inr (.inl ⟨absent, room, storable, _, _, rfl, list⟩)

/-- The pool behind calls that add constants, whether each succeeds or fails. -/
def addAll (p : ConstantPool) (cs : List Constant) : ConstantPool :=
  cs.foldl (fun p c => (p.intern c).state) p

theorem addAll_append (p : ConstantPool) (cs ds : List Constant) :
    p.addAll (cs ++ ds) = (p.addAll cs).addAll ds := List.foldl_append

/-- A constant that was added is in the pool. -/
theorem mem_of_intern {index : Nat} (run : p.intern c = ⟨q, .ok index⟩) : c ∈ q.toList := by
  rcases p.intern_cases c with ⟨present, _, same⟩ | ⟨_, _, _, _, _, more, list⟩ | ⟨_, _, _, refused⟩
  · rw [same] at run
    cases run
    exact present
  · rw [more] at run
    cases run
    rw [list]
    exact List.mem_append_right _ List.mem_cons_self
  · rw [refused] at run
    cases run

/-- A pool that can be written: the number of its entries and the size of each string fit 16
bits. -/
structure Fits (p : ConstantPool) : Prop where
  size_le : p.size ≤ poolLimit
  storable : ∀ c ∈ p.toList, c.Storable

/-- Constants are added only as long as they fit. -/
theorem Fits.addAll (fits : p.Fits) (cs : List Constant) : (p.addAll cs).Fits := by
  induction cs generalizing p with
  | nil => exact fits
  | cons c _ ih =>
    rw [ConstantPool.addAll, List.foldl_cons]
    rcases p.intern_cases c with ⟨_, index, same⟩ | ⟨_, room, storable, index, q, more, list⟩ |
      ⟨_, _, err, refused⟩
    · rw [same]
      exact ih fits
    · rw [more]
      refine ih ⟨?_, fun d mem => ?_⟩
      · rw [← length_toList, list, List.length_append, length_toList]
        exact room
      · rw [list] at mem
        rcases List.mem_append.mp mem with before | last
        · exact fits.storable d before
        · cases List.mem_singleton.mp last
          exact storable
    · rw [refused]
      exact ih fits

/-- New constants that fit are all added, in their order. -/
theorem toList_addAll (fits : q.Fits) (list : q.toList = p.toList ++ cs) : p.addAll cs = q := by
  induction cs generalizing p with
  | nil => exact ext (by simpa [addAll] using list.symm)
  | cons c _ ih =>
    have storable : c.Storable := fits.storable c (by simp [list])
    have room : p.size < poolLimit := by
      have length := congrArg List.length list
      have := fits.size_le
      simp only [List.length_append, length_toList, List.length_cons] at length
      omega
    rw [addAll, List.foldl_cons]
    rcases p.intern_cases c with ⟨present, _⟩ | ⟨_, _, _, index, next, added, more⟩ | ⟨_, unfit, _⟩
    · exact absurd present (not_mem_of_toList_eq list)
    · rw [added]
      exact ih (by rw [more, list, List.append_assoc]; rfl)
    · exact absurd ⟨room, storable⟩ unfit

/-- The pools that can be built by adding constants are those that fit. -/
theorem exists_addAll_iff (p : ConstantPool) : (∃ cs, p = addAll ∅ cs) ↔ p.Fits := by
  constructor
  · rintro ⟨cs, rfl⟩
    exact Fits.addAll ⟨Nat.zero_le _, fun c mem => absurd mem List.not_mem_nil⟩ cs
  · intro fits
    exact ⟨p.toList, (toList_addAll fits rfl).symm⟩

end ConstantPool

namespace Reader

variable {p q : ConstantPool} {r r' : Reader}

/-- The constants of a pool are read back. -/
theorem constants_encode (list : q.toList = p.toList ++ cs) (storable : ∀ c ∈ cs, c.Storable)
    (offset : Nat) (rest : List UInt8) :
    constants cs.length p ⟨offset, cs.flatMap Constant.encode ++ rest⟩ =
      .ok (q, ⟨offset + (cs.flatMap Constant.encode).length, rest⟩) := by
  induction cs generalizing p offset with
  | nil =>
    obtain rfl : p = q := ConstantPool.ext (by simpa using list.symm)
    rfl
  | cons c others ih =>
    obtain ⟨next, pushed, more⟩ :=
      ConstantPool.pushNew?_of_not_mem (ConstantPool.not_mem_of_toList_eq list)
    have list' : q.toList = next.toList ++ others := by
      rw [more, list, List.append_assoc]
      rfl
    have tail := ih list' (fun d mem => storable d (List.mem_cons_of_mem _ mem))
      (offset + c.encode.length)
    simp only [List.length_cons, constants, List.flatMap_cons, List.append_assoc,
      constant_encode (storable c List.mem_cons_self), bind, Except.bind, pushed, tail,
      List.length_append, Nat.add_assoc]

/-- Constants that were read stand there as they are written. -/
theorem constants_eq_ok {n : Nat} (run : constants n p r = .ok (q, r')) :
    ∃ cs, cs.length = n ∧ q.toList = p.toList ++ cs ∧
      r.rest = cs.flatMap Constant.encode ++ r'.rest ∧ ∀ c ∈ cs, c.Storable := by
  induction n generalizing p r with
  | zero =>
    cases run
    exact ⟨[], rfl, (List.append_nil _).symm, rfl, nofun⟩
  | succ _ ih =>
    simp only [constants, except_bind_eq_ok] at run
    obtain ⟨⟨c, next⟩, read, ending⟩ := run
    obtain ⟨front, storable⟩ := constant_eq_ok read
    cases pushed : p.pushNew? c with
    | none =>
      rw [pushed] at ending
      cases ending
    | some =>
      rw [pushed] at ending
      obtain ⟨cs, rfl, list, behind, others⟩ := ih ending
      have more := ConstantPool.toList_of_pushNew? pushed
      refine ⟨c :: cs, rfl, ?_, ?_, ?_⟩
      · rw [list, more, List.append_assoc]
        rfl
      · rw [front, behind, List.flatMap_cons, List.append_assoc]
      · rintro d (_ | ⟨_, mem⟩)
        · exact storable
        · exact others d mem

/-- A pool that fits is read back. -/
theorem pool_encode (fits : p.Fits) (offset : Nat) (rest : List UInt8) :
    pool ⟨offset, p.encode ++ rest⟩ = .ok (p, ⟨offset + p.encode.length, rest⟩) := by
  have size : (UInt16.ofNat p.size).toNat = p.size :=
    UInt16.toNat_ofNat_of_lt' (Nat.lt_succ_of_le fits.size_le)
  have all : p.toList = (∅ : ConstantPool).toList ++ p.toList := rfl
  have read := constants_encode all fits.storable (offset + 2) rest
  rw [ConstantPool.length_toList] at read
  simp only [pool, ConstantPool.encode, List.append_assoc, word16_bytes16, bind, Except.bind, size,
    read]
  simp [bytes16, Nat.add_assoc]

/-- A pool is read from its own bytes only, and it fits. -/
theorem pool_eq_ok (run : pool r = .ok (p, r')) : r.rest = p.encode ++ r'.rest ∧ p.Fits := by
  simp only [pool, except_bind_eq_ok] at run
  obtain ⟨⟨count, next⟩, counted, ending⟩ := run
  obtain ⟨cs, length, list, behind, storable⟩ := constants_eq_ok ending
  obtain rfl : p.toList = cs := list
  rw [ConstantPool.length_toList] at length
  refine ⟨?_, ?_, storable⟩
  · rw [word16_eq_ok counted, behind, ConstantPool.encode, length, UInt16.ofNat_toNat,
      List.append_assoc]
  · rw [length]
    exact Nat.le_of_lt_succ count.toNat_lt

end Reader

/-! ### Images -/

/-- An image that can be loaded: its pool was built by adding constants, and its code
consists of instructions. -/
structure Image.Loadable (image : Image) : Prop where
  built : ∃ cs, image.constants = ConstantPool.addAll ∅ cs
  readable : ∃ code, disassemble image.code = .ok code

/-- An image that can be loaded is read back, whatever it holds. -/
theorem Image.decode_encode (loadable : image.Loadable) : decode image.encode = .ok image := by
  have fits := (ConstantPool.exists_addAll_iff _).mp loadable.built
  obtain ⟨code, read⟩ := loadable.readable
  simp only [decode, encode, List.append_assoc, Reader.pool_encode fits, Reader.word16_bytes16,
    read, bind, Except.bind]
  rfl

/-- Bytes that are read as an image are those of the image. -/
theorem Image.encode_of_decode (run : decode bytes = .ok image) :
    image.encode = bytes ∧ image.Loadable := by
  simp only [decode, except_bind_eq_ok, except_pure_eq_ok] at run
  obtain ⟨⟨p, r⟩, pooled, ⟨count, r'⟩, counted, code, read, rfl⟩ := run
  obtain ⟨front, fits⟩ := Reader.pool_eq_ok pooled
  refine ⟨?_, (ConstantPool.exists_addAll_iff _).mpr fits, code, read⟩
  rw [Reader.word16_eq_ok counted, ← List.append_assoc] at front
  exact front.symm

end Bindery.Machine

/-! ### Emitted images -/

namespace Bindery

def Emission.PoolGrows (e e' : Emission) : Prop :=
  ∃ cs, e'.constants = e.constants.addAll cs

namespace Emission.PoolGrows

variable {e e' e'' : Emission}

theorem of_eq (same : e'.constants = e.constants) : e.PoolGrows e' := ⟨[], same⟩

theorem frames (e : Emission) (frames : Storage.FrameStack) : e.PoolGrows { e with frames } :=
  of_eq rfl

theorem trans (first : e.PoolGrows e') (second : e'.PoolGrows e'') : e.PoolGrows e'' := by
  obtain ⟨cs, more⟩ := first
  obtain ⟨ds, more'⟩ := second
  exact ⟨cs ++ ds, by rw [more', more, Machine.ConstantPool.addAll_append]⟩

theorem constant {c : Machine.Constant} {i : Machine.Instruction}
    (run : Emit.constant c e = .ok (i, e')) : e.PoolGrows e' := by
  obtain ⟨index, constants, added, _, rfl⟩ := Emit.constant_eq_ok run
  refine ⟨[c], ?_⟩
  simp [Machine.ConstantPool.addAll, added]

variable {s : SymbolId}

theorem resolve {symbols : SymbolTable} {slot : Storage.Slot}
    (run : Emit.resolve symbols s e = .ok (slot, e')) : e.PoolGrows e' := by
  rcases Emit.resolve_eq_ok run with ⟨_, _, _, rfl⟩ | ⟨_, _, _, _, rfl⟩ | ⟨_, _, rfl⟩
  all_goals exact of_eq rfl

theorem declare {store : Emit.Code} (run : Emit.declare s e = .ok (store, e')) :
    e.PoolGrows e' := by
  rcases Emit.declare_eq_ok run with ⟨_, _, _, _, _, rfl⟩ | ⟨_, _, _, _, rfl⟩
  all_goals exact of_eq rfl

theorem putLocals {locals : List SymbolId}
    (run : locals.forM Emit.putLocal e = .ok ((), e')) : e.PoolGrows e' := by
  induction locals generalizing e with
  | nil =>
    obtain ⟨_, rfl⟩ := Emit.pure_eq_ok.mp run
    exact of_eq rfl
  | cons _ _ ih =>
    obtain ⟨_, _, others⟩ := Emit.putLocals_cons run
    exact trans (frames ..) (ih others)

end Emission.PoolGrows

/-- Expressions add constants only. -/
theorem Emission.Expands.poolGrows {symbols : SymbolTable} {e e' : Emission}
    (run : Expands symbols e e') : e.PoolGrows e' := by
  refine run.preserves (P := e.PoolGrows) ?_ (.of_eq rfl)
  rintro a b (⟨_, added⟩ | found) grows
  · exact grows.trans (.constant added)
  · exact grows.trans (.resolve found)

end Bindery

namespace Bindery.Bound

open Emission (PoolGrows)

theorem Expression.Writes.poolGrows {symbols : SymbolTable} {x : Expression}
    {chain : Option BinaryOperation} {e e' : Emission} {codes : List Emit.Code}
    (run : x.Writes symbols chain e codes e') : e.PoolGrows e' :=
  run.expands.poolGrows

variable {symbols : SymbolTable}

mutual

/-- Writing code adds constants only. -/
theorem Statement.Writes.poolGrows {s : Statement} {loop start e e' code} :
    s.Writes symbols loop start e code e' → e.PoolGrows e'
  | .function declared put body wrapped => by
    obtain ⟨_, _, _, _, _, _, _, _, added, _, _⟩ := wrapFunction_eq_ok wrapped
    have parameters := (PoolGrows.frames ..).trans (.putLocals put)
    have inside := (PoolGrows.frames ..).trans body.poolGrows
    have value := (PoolGrows.frames ..).trans (.constant added)
    exact (PoolGrows.declare declared).trans (parameters.trans (inside.trans value))
  | .declare value declared => value.poolGrows.trans (.declare declared)
  | .ifThen condition yes _ => condition.poolGrows.trans yes.poolGrows
  | .ifElse condition yes _ no _ => condition.poolGrows.trans (yes.poolGrows.trans no.poolGrows)
  | .whileLoop condition body _ => condition.poolGrows.trans body.poolGrows
  | .doWhile body condition _ => body.poolGrows.trans condition.poolGrows
  | .block statements => (PoolGrows.frames ..).trans (statements.poolGrows.trans (.frames ..))
  | .returnsUnit | .breakLoop | .continueLoop => .of_eq rfl
  | .returns value | .print value | .expression value => value.poolGrows

theorem WritesList.poolGrows {statements loop start e e' code} :
    WritesList symbols loop start statements e code e' → e.PoolGrows e'
  | .nil => .of_eq rfl
  | .cons first others => first.poolGrows.trans others.poolGrows

end

/-- The image of a program can be loaded. -/
theorem Program.loadable_of_emit {p : Program} {image : Machine.Image}
    (run : p.emit = .ok image) : image.Loadable := by
  obtain ⟨code, e, written, constants, bytes⟩ := Program.emitCode_of_emit run
  obtain ⟨_, _, statements⟩ := Program.writes_of_emitCode written
  obtain ⟨cs, built⟩ := statements.poolGrows
  refine ⟨⟨cs, constants.trans built⟩, Machine.locate 0 code, ?_⟩
  rw [bytes]
  exact Program.disassemble_of_emitCode written

end Bindery.Bound

namespace Bindery.Machine

/-- Reading and writing images are inverse to each other: exactly the written forms of images
that can be loaded are read, each as the image it was written from. Emitted images can be
loaded. -/
theorem Image.decode_iff_encode :
    (∀ (bytes : List UInt8) (image : Image),
      decode bytes = .ok image ↔ image.encode = bytes ∧ image.Loadable) ∧
    ∀ (p : Bound.Program) (image : Image), p.emit = .ok image → image.Loadable := by
  refine ⟨fun bytes image => ⟨Image.encode_of_decode, ?_⟩, fun p image => p.loadable_of_emit⟩
  rintro ⟨rfl, loadable⟩
  exact Image.decode_encode loadable

/-- Prints a text beyond ASCII and a floating-point number. -/
def measurement : Bound.Program where
  statements := [
    .print (.literal (.string "größe ≈") default) default,
    .print (.literal (.double 0x3FF8000000000000) default) default]
  symbols := ⟨#[]⟩

/-- Both constants of the image are read back. -/
theorem measurement_readBack :
    ∃ image, measurement.emit = .ok image ∧ image.constants.size = 2 ∧
      Image.decode image.encode = .ok image := by
  have succeeds : (measurement.emit.toOption.map fun image => image.constants.size) = some 2 := by
    decide +kernel
  obtain ⟨image, run, sized⟩ := ok_of_toOption_map succeeds
  have loadable := Image.decode_iff_encode.2 measurement image run
  exact ⟨image, run, sized, (Image.decode_iff_encode.1 image.encode image).mpr ⟨rfl, loadable⟩⟩

end Bindery.Machine
