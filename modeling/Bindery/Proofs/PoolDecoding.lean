import Bindery.Proofs.ImageCodec
import Bindery.Proofs.Readers

/-!
Pools at the front of bytes.

A pool is read from exactly the bytes that write it (`decodePool_exact`). So the number of bytes
that `decodePool` gives can be used to go on behind the pool (`Image.decode_eq_slices`).
-/

namespace Bindery.Machine

theorem ConstantPool.pushNew?_of_mem {p : ConstantPool} {c : Constant} (known : c ∈ p.toList) :
    p.pushNew? c = none := by
  cases pushed : p.pushNew? c with
  | none => rfl
  | some => exact absurd known (not_mem_of_toList_eq (toList_of_pushNew? pushed))

/-! ### Repeated entries -/

/-- The constants of `cs` are read one after the other, from the first reader to the second. -/
inductive Reader.Entries : Reader → List Constant → Reader → Prop where
  | nil {r} : Reader.Entries r [] r
  | cons {r c next cs last} : r.constant = .ok (c, next) → Reader.Entries next cs last →
      Reader.Entries r (c :: cs) last

/-- Among the next `n` entries, the first that is in `known` or equals one in front of it starts at
`offset`. -/
def Reader.RepeatsFrom (r : Reader) (n : Nat) (known : List Constant) (offset : Nat) : Prop :=
  ∃ cs entry c next, r.Entries cs entry ∧ (known ++ cs).Nodup ∧ cs.length < n ∧
    entry.offset = offset ∧ entry.constant = .ok (c, next) ∧ c ∈ known ++ cs

/-- In the pool at the front of `bytes`, the entries up to `offset` are different constants and the
one that starts there is one of them. -/
def RepeatsAt (bytes : List UInt8) (offset : Nat) : Prop :=
  ∃ count start, Reader.word16 ⟨0, bytes⟩ .constantCount = .ok (count, start) ∧
    start.RepeatsFrom count.toNat [] offset

namespace Reader

variable {r next : Reader} {c : Constant} {n offset : Nat} {known : List Constant}

theorem Entries.cases {cs : List Constant} {entry : Reader} (read : r.constant = .ok (c, next))
    (h : r.Entries cs entry) :
    (cs = [] ∧ entry = r) ∨ ∃ others, cs = c :: others ∧ next.Entries others entry := by
  cases h with
  | nil => exact .inl ⟨rfl, rfl⟩
  | cons first others =>
    rw [read] at first
    cases first
    exact .inr ⟨_, rfl, others⟩

theorem not_repeatsFrom_zero : ¬r.RepeatsFrom 0 known offset := by
  rintro ⟨_, _, _, _, _, _, none, _⟩
  exact Nat.not_lt_zero _ none

theorem not_repeatsFrom_of_error {e : DecodeError} (unread : r.constant = .error e) :
    ¬r.RepeatsFrom n known offset := by
  rintro ⟨_, _, _, _, entries, _, _, _, read, _⟩
  cases entries with
  | nil =>
    rw [unread] at read
    cases read
  | cons first =>
    rw [unread] at first
    cases first

/-- An entry that is known is the first to repeat one. -/
theorem repeatsFrom_of_known (read : r.constant = .ok (c, next)) (distinct : known.Nodup)
    (mem : c ∈ known) : r.RepeatsFrom (n + 1) known offset ↔ r.offset = offset := by
  constructor
  · rintro ⟨_, _, _, _, entries, distinct, _, place, _⟩
    rcases entries.cases read with ⟨rfl, rfl⟩ | ⟨others, rfl, _⟩
    · exact place
    · exact absurd rfl ((List.nodup_append.mp distinct).2.2 c mem c List.mem_cons_self)
  · intro place
    exact ⟨[], r, c, next, .nil, by rwa [List.append_nil], Nat.succ_pos n, place, read,
      List.mem_append_left _ mem⟩

/-- An entry that is new is known from then on. -/
theorem repeatsFrom_of_new (read : r.constant = .ok (c, next)) (fresh : c ∉ known) :
    r.RepeatsFrom (n + 1) known offset ↔ next.RepeatsFrom n (known ++ [c]) offset := by
  constructor
  · rintro ⟨_, entry, d, last, entries, distinct, fewer, place, found, mem⟩
    rcases entries.cases read with ⟨rfl, rfl⟩ | ⟨others, rfl, behind⟩
    · rw [read] at found
      cases found
      rw [List.append_nil] at mem
      exact absurd mem fresh
    · rw [List.append_cons] at distinct mem
      exact ⟨others, entry, d, last, behind, distinct, Nat.lt_of_succ_lt_succ fewer, place, found,
        mem⟩
  · rintro ⟨others, entry, d, last, behind, distinct, fewer, place, found, mem⟩
    rw [← List.append_cons] at distinct mem
    exact ⟨c :: others, entry, d, last, .cons read behind, distinct, Nat.succ_lt_succ fewer, place,
      found, mem⟩

/-- Entries are refused as repeating one exactly where one is the first to do so. -/
theorem constants_eq_duplicate_iff {pool : ConstantPool} :
    constants n pool r = .error (.duplicateConstant offset) ↔
      r.RepeatsFrom n pool.toList offset := by
  induction n generalizing pool r with
  | zero => exact ⟨fun run => (by cases run), fun h => absurd h not_repeatsFrom_zero⟩
  | succ _ ih =>
    cases read : r.constant with
    | error =>
      simp only [constants, read, bind, Except.bind]
      refine ⟨fun run => ?_, fun h => absurd h (not_repeatsFrom_of_error read)⟩
      cases run
      exact absurd read single_constant.noRepeat
    | ok x =>
      obtain ⟨c, next⟩ := x
      simp only [constants, read, bind, Except.bind]
      have distinct : pool.toList.Nodup := pool.entries.nodup_toList
      by_cases known : c ∈ pool.toList
      · rw [ConstantPool.pushNew?_of_mem known, repeatsFrom_of_known read distinct known]
        simp
      · obtain ⟨more, pushed, list⟩ := ConstantPool.pushNew?_of_not_mem known
        rw [pushed, repeatsFrom_of_new read known, ← list]
        exact ih

/-- A pool is refused as repeating an entry exactly where one does. -/
theorem pool_eq_duplicate_iff {bytes : List UInt8} :
    pool ⟨0, bytes⟩ = .error (.duplicateConstant offset) ↔ RepeatsAt bytes offset := by
  have chained : pool ⟨0, bytes⟩ =
      Reading.andThen (fun r => r.word16 .constantCount) (fun _ n => constants n.toNat ∅)
        ⟨0, bytes⟩ := rfl
  rw [chained, Reading.andThen_eq_error]
  constructor
  · rintro (early | ⟨count, start, read, late⟩)
    · exact absurd early (steady_word16 .constantCount).single.noRepeat
    · exact ⟨count, start, read, constants_eq_duplicate_iff.mp late⟩
  · rintro ⟨count, start, read, repeats⟩
    exact .inr ⟨count, start, read, constants_eq_duplicate_iff.mpr repeats⟩

end Reader

/-! ### Bytes of a pool -/

variable {bytes : List UInt8} {p : ConstantPool} {n : Nat}

theorem decodePool_eq_error {e : DecodeError} :
    decodePool bytes = .error e ↔ Reader.pool ⟨0, bytes⟩ = .error e := by
  unfold decodePool
  cases Reader.pool ⟨0, bytes⟩ with
  | error => simp [bind, Except.bind]
  | ok => simp [bind, Except.bind, pure, Except.pure]

theorem decodePool_of_pool {r : Reader} (run : Reader.pool ⟨0, bytes⟩ = .ok (p, r)) :
    decodePool bytes = .ok (p, r.offset) := by
  rw [decodePool, run]
  rfl

/-- Behind a pool, reading goes on with the bytes that were not taken. -/
theorem pool_of_decodePool (run : decodePool bytes = .ok (p, n)) :
    Reader.pool ⟨0, bytes⟩ = .ok (p, ⟨n, bytes.drop n⟩) := by
  simp only [decodePool, except_bind_eq_ok, except_pure_eq_ok] at run
  obtain ⟨⟨p, r⟩, ran, same⟩ := run
  cases same
  obtain ⟨taken, split, counted, _⟩ := Reader.lawful_pool.ok ran
  rw [Nat.zero_add] at counted
  rw [ran, split, List.drop_left' counted.symm]

/-- The bytes taken are those of the pool, and whatever stands behind them makes no difference. -/
theorem take_of_decodePool (run : decodePool bytes = .ok (p, n)) :
    n ≤ bytes.length ∧ p.encode = bytes.take n ∧
      ∀ others, decodePool (bytes.take n ++ others) = .ok (p, n) := by
  have ran := pool_of_decodePool run
  obtain ⟨taken, split, counted, whatever⟩ := Reader.lawful_pool.ok ran
  have counted : n = taken.length := counted.trans (Nat.zero_add _)
  have front : bytes.take n = taken := by rw [split, List.take_left' counted.symm]
  obtain ⟨written, _⟩ := Reader.pool_eq_ok ran
  refine ⟨?_, ?_, fun others => ?_⟩
  · rw [split, List.length_append, ← counted]
    exact Nat.le_add_right ..
  · rw [front]
    exact List.append_cancel_right (written.symm.trans split)
  · rw [front, decodePool_of_pool (whatever others), Nat.zero_add, counted]

/-- The number of globals is read only where its two bytes are, and reading goes on behind them. -/
theorem drop_of_word16 {count : UInt16} {r : Reader}
    (read : Reader.word16 ⟨n, bytes.drop n⟩ .globalCount = .ok (count, r)) :
    n + 2 ≤ bytes.length ∧ r.rest = bytes.drop (n + 2) := by
  have split : bytes.drop n = bytes16 count ++ r.rest := Reader.word16_eq_ok read
  have two : (bytes16 count).length = 2 := length_bytesOf ..
  have length := congrArg List.length split
  rw [List.length_append, List.length_drop, two] at length
  refine ⟨by omega, ?_⟩
  rw [← List.drop_drop, split, List.drop_left' two]

/-- An image is the pool in front, the number of globals in the two bytes behind it and the code in
all bytes behind these. -/
theorem Image.decode_eq_slices (bytes : List UInt8) :
    Image.decode bytes = do
      let (constants, n) ← decodePool bytes
      let (globalCount, _) ← Reader.word16 ⟨n, bytes.drop n⟩ .globalCount
      let _ ← disassemble (bytes.drop (n + 2))
      return ⟨constants, globalCount, bytes.drop (n + 2)⟩ := by
  cases run : decodePool bytes with
  | error =>
    rw [Image.decode, decodePool_eq_error.mp run]
    rfl
  | ok x =>
    obtain ⟨p, n⟩ := x
    rw [Image.decode, pool_of_decodePool run]
    simp only [bind, Except.bind]
    cases read : Reader.word16 ⟨n, bytes.drop n⟩ .globalCount with
    | error => rfl
    | ok y =>
      obtain ⟨globalCount, r⟩ := y
      rw [← (drop_of_word16 read).2]

/-- A pool is read from exactly the bytes that write it: whatever stands behind them it is read from
them again, fewer of them are a cut, and the places behind which an image goes on are within its
bytes. It is refused as repeating an entry exactly where an entry is the first to do so. -/
theorem decodePool_exact (bytes : List UInt8) :
    (∀ pool n, decodePool bytes = .ok (pool, n) →
      n ≤ bytes.length ∧ pool.toList.Nodup ∧ pool.encode = bytes.take n ∧
      (∀ others, decodePool (bytes.take n ++ others) = .ok (pool, n)) ∧
      (∀ m < n, ∃ part offset, decodePool (bytes.take m) = .error (.truncated part offset)) ∧
      ∀ count r, Reader.word16 ⟨n, bytes.drop n⟩ .globalCount = .ok (count, r) →
        n + 2 ≤ bytes.length) ∧
    (∀ offset, decodePool bytes = .error (.duplicateConstant offset) ↔ RepeatsAt bytes offset) ∧
    Image.decode bytes = do
      let (constants, n) ← decodePool bytes
      let (globalCount, _) ← Reader.word16 ⟨n, bytes.drop n⟩ .globalCount
      let _ ← disassemble (bytes.drop (n + 2))
      return ⟨constants, globalCount, bytes.drop (n + 2)⟩ := by
  refine ⟨fun pool n run => ?_, fun offset => ?_, Image.decode_eq_slices bytes⟩
  · obtain ⟨within, written, again⟩ := take_of_decodePool run
    refine ⟨within, pool.entries.nodup_toList, written, again, fun m fewer => ?_,
      fun count r read => (drop_of_word16 read).1⟩
    obtain ⟨part, place, cut⟩ := Reader.lawful_pool.truncated_of_cut (pool_of_decodePool run)
      (m := m) (by simpa using fewer)
    exact ⟨part, place, decodePool_eq_error.mpr cut⟩
  · exact decodePool_eq_error.trans Reader.pool_eq_duplicate_iff

/-- A pool with a function and a number, two bytes for the number of globals, and an instruction. -/
def pooled : List UInt8 := [0, 2, 5, 0, 7, 1, 0, 0, 0, 0, 9, 0, 3, 30]

def repeating : List UInt8 := [0, 2, 0, 0, 0, 0, 9, 0, 0, 0, 0, 9]

theorem pooled_exact :
    (∃ pool, decodePool pooled = .ok (pool, 11) ∧ pool.toList = [.function 7 1, .int 9] ∧
      pool.encode = pooled.take 11 ∧ 13 ≤ pooled.length ∧
      ∃ part offset, decodePool (pooled.take 10) = .error (.truncated part offset)) ∧
    RepeatsAt repeating 7 := by
  have refused : decodePool repeating = .error (.duplicateConstant 7) := by decide +kernel
  refine ⟨?_, ((decodePool_exact repeating).2.1 7).mp refused⟩
  have succeeds : ((decodePool pooled).toOption.map fun x => (x.1.toList, x.2)) =
      some ([.function 7 1, .int 9], 11) := by decide +kernel
  obtain ⟨⟨pool, n⟩, run, holds⟩ := ok_of_toOption_map succeeds
  obtain ⟨list, rfl⟩ := Prod.mk.inj holds
  have globals : Reader.word16 ⟨11, pooled.drop 11⟩ .globalCount = .ok (3, ⟨13, [30]⟩) := rfl
  obtain ⟨_, _, written, _, cut, behind⟩ := (decodePool_exact pooled).1 pool 11 run
  exact ⟨pool, run, list, written, behind 3 ⟨13, [30]⟩ globals, cut 10 (by decide)⟩

end Bindery.Machine
