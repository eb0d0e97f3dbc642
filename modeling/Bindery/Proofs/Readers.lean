import Bindery.Machine.Decode

/-!
Laws of reading.

A way of reading is `Lawful` if what it gives depends only on the bytes it takes, and if bytes that
are added behind mend no error unless something was cut off. It is `Steady` if, besides, the place
at which it starts only shifts the offsets it gives, and every error is a cut that some further
bytes mend. The laws hold of reading a fixed number of bytes and are kept where one thing is read
after another, so they hold of what is read from an image. Operands are steady. Constants can be
wrong beyond repair, but one on its own is never a repetition (`Single`), as it can be in a pool.
-/

namespace Bindery.Machine

variable {e : DecodeError}

namespace DecodeError

def isTruncated : DecodeError → Bool
  | .truncated .. => true
  | _ => false

theorem isTruncated_iff : e.isTruncated = true ↔ ∃ part offset, e = .truncated part offset := by
  cases e with
  | truncated part offset => exact ⟨fun _ => ⟨part, offset, rfl⟩, fun _ => rfl⟩
  | _ => simp [isTruncated]

def shift (k : Nat) : DecodeError → DecodeError
  | .unknownOpcode byte offset => .unknownOpcode byte (offset + k)
  | .truncated part offset => .truncated part (offset + k)
  | .unknownTag tag offset => .unknownTag tag (offset + k)
  | .invalidText offset => .invalidText (offset + k)
  | .duplicateConstant offset => .duplicateConstant (offset + k)

end DecodeError

abbrev Reading (α : Type) := Reader → Except DecodeError (α × Reader)

namespace Reading

variable {α β : Type}

def andThen (p : Reading α) (f : Nat → α → Reading β) : Reading β := fun r =>
  p r >>= fun x => f r.offset x.1 x.2

def shift (k : Nat) : Except DecodeError (α × Reader) → Except DecodeError (α × Reader)
  | .ok (a, r) => .ok (a, ⟨r.offset + k, r.rest⟩)
  | .error e => .error (e.shift k)

/-- Reading depends on the bytes taken, and only a cut is mended by more bytes. -/
structure Lawful (p : Reading α) : Prop where
  ok : ∀ {offset : Nat} {bytes : List UInt8} {a : α} {r : Reader}, p ⟨offset, bytes⟩ = .ok (a, r) →
    ∃ taken, bytes = taken ++ r.rest ∧ r.offset = offset + taken.length ∧
      ∀ rest, p ⟨offset, taken ++ rest⟩ = .ok (a, ⟨offset + taken.length, rest⟩)
  error : ∀ {offset : Nat} {bytes : List UInt8} {e : DecodeError}, p ⟨offset, bytes⟩ = .error e →
    e.isTruncated = false → ∀ more, p ⟨offset, bytes ++ more⟩ = .error e

/-- A lawful reading that has nothing to do with what was read before, so that it finds no
repetition. -/
structure Single (p : Reading α) : Prop extends Lawful p where
  noRepeat : ∀ {r : Reader} {offset : Nat}, p r ≠ .error (.duplicateConstant offset)

/-- A lawful reading that is the same everywhere and can only fail where something is cut off that
further bytes can supply. -/
structure Steady (p : Reading α) : Prop extends Lawful p where
  moves : ∀ (k offset : Nat) (bytes : List UInt8),
    p ⟨offset + k, bytes⟩ = shift k (p ⟨offset, bytes⟩)
  mends : ∀ {offset : Nat} {bytes : List UInt8} {e : DecodeError}, p ⟨offset, bytes⟩ = .error e →
    e.isTruncated = true ∧
      ∃ more a r, p ⟨offset, bytes ++ more⟩ = .ok (a, r) ∧ r.rest = []

/-! ### One thing after another -/

variable {p : Reading α} {f : Nat → α → Reading β} {r : Reader}

theorem andThen_eq_ok {r' : Reader} {b : β} :
    andThen p f r = .ok (b, r') ↔
      ∃ a next, p r = .ok (a, next) ∧ f r.offset a next = .ok (b, r') := by
  unfold andThen
  cases p r with
  | error => simp [bind, Except.bind]
  | ok x =>
    constructor
    · exact fun run => ⟨x.1, x.2, rfl, run⟩
    · rintro ⟨a, next, same, run⟩
      cases same
      exact run

theorem andThen_eq_error :
    andThen p f r = .error e ↔
      p r = .error e ∨ ∃ a next, p r = .ok (a, next) ∧ f r.offset a next = .error e := by
  unfold andThen
  cases p r with
  | error => simp [bind, Except.bind]
  | ok x =>
    constructor
    · exact fun run => .inr ⟨x.1, x.2, rfl, run⟩
    · rintro (early | ⟨a, next, same, run⟩)
      · cases early
      · cases same
        exact run

namespace Lawful

/-- Reading one thing and then another is lawful if both are. -/
theorem andThen (first : Lawful p) (second : ∀ offset a, Lawful (f offset a)) :
    Lawful (p.andThen f) where
  ok {offset bytes b r} run := by
    obtain ⟨a, next, ran, ran'⟩ := andThen_eq_ok.mp run
    obtain ⟨taken, split, counted, whatever⟩ := first.ok ran
    obtain ⟨taken', split', counted', whatever'⟩ := (second offset a).ok ran'
    have total : offset + (taken ++ taken').length = next.offset + taken'.length := by
      rw [counted, List.length_append, Nat.add_assoc]
    refine ⟨taken ++ taken', by rw [split, split', List.append_assoc], counted'.trans total.symm,
      fun rest => andThen_eq_ok.mpr ⟨a, _, by rw [List.append_assoc, whatever], ?_⟩⟩
    rw [← counted, whatever', total]
  error {offset bytes e} run uncut more := by
    rcases andThen_eq_error.mp run with early | ⟨a, next, ran, late⟩
    · exact andThen_eq_error.mpr (.inl (first.error early uncut more))
    · obtain ⟨taken, split, counted, whatever⟩ := first.ok ran
      refine andThen_eq_error.mpr (.inr ⟨a, _, by rw [split, List.append_assoc, whatever], ?_⟩)
      rw [← counted]
      exact (second offset a).error late uncut more

theorem done (a : α) : Lawful (fun r => .ok (a, r)) where
  ok {offset bytes b r} run := by
    cases run
    exact ⟨[], rfl, rfl, fun _ => rfl⟩
  error run := by cases run

theorem fails (e : DecodeError) : Lawful (fun _ => .error e : Reading α) where
  ok run := by cases run
  error run _ _ := run

/-- If the bytes that are taken are cut short, the answer is that something is cut off. -/
theorem truncated_of_cut (h : Lawful p) {offset : Nat} {bytes : List UInt8} {a : α}
    (run : p ⟨offset, bytes⟩ = .ok (a, r)) {m : Nat} (cut : offset + m < r.offset) :
    ∃ part place, p ⟨offset, bytes.take m⟩ = .error (.truncated part place) := by
  obtain ⟨taken, split, counted, _⟩ := h.ok run
  have length : (bytes.take m).length = m := by
    rw [List.length_take, split, List.length_append]
    omega
  have whole : bytes.take m ++ bytes.drop m = bytes := List.take_append_drop ..
  cases short : p ⟨offset, bytes.take m⟩ with
  | ok x =>
    -- The front would be read as it is read in all of the bytes, which takes more than there is.
    obtain ⟨taken', split', _, whatever'⟩ := h.ok short
    have again := whatever' (x.2.rest ++ bytes.drop m)
    rw [← List.append_assoc, ← split', whole, run] at again
    cases again
    have := congrArg List.length split'
    rw [length, List.length_append] at this
    simp only at cut
    omega
  | error e =>
    cases truncated : e.isTruncated with
    | true =>
      obtain ⟨part, place, rfl⟩ := DecodeError.isTruncated_iff.mp truncated
      exact ⟨part, place, rfl⟩
    | false =>
      have again := h.error short truncated (bytes.drop m)
      rw [whole, run] at again
      cases again

end Lawful

namespace Steady

variable {f : α → Reading β}

theorem done (a : α) : Steady (fun r => .ok (a, r)) where
  toLawful := .done a
  moves _ _ _ := rfl
  mends run := by cases run

theorem andThen (first : Steady p) (second : ∀ a, Steady (f a)) :
    Steady (p.andThen fun _ => f) where
  toLawful := first.toLawful.andThen fun _ a => (second a).toLawful
  moves k offset bytes := by
    unfold Reading.andThen
    rw [first.moves]
    cases p ⟨offset, bytes⟩ with
    | error => rfl
    | ok x => exact (second x.1).moves k x.2.offset x.2.rest
  mends {offset bytes e} run := by
    rcases andThen_eq_error.mp run with early | ⟨a, next, ran, late⟩
    · obtain ⟨truncated, more, a, next, mended, atEnd⟩ := first.mends early
      refine ⟨truncated, ?_⟩
      cases behind : f a next with
      | ok x =>
        obtain ⟨taken, split, _⟩ := (second a).ok behind
        rw [atEnd] at split
        exact ⟨more, x.1, x.2, andThen_eq_ok.mpr ⟨a, next, mended, behind⟩,
          (List.append_eq_nil_iff.mp split.symm).2⟩
      | error =>
        -- What comes second is cut off as well, and what mends it goes behind what mends the first.
        obtain ⟨_, more', b, r, mended', atEnd'⟩ := (second a).mends behind
        obtain ⟨taken, split, counted, whatever⟩ := first.ok mended
        rw [atEnd, List.append_nil] at split
        refine ⟨more ++ more', b, r, andThen_eq_ok.mpr ⟨a, ⟨next.offset, more'⟩, ?_, ?_⟩, atEnd'⟩
        · rw [← List.append_assoc, split, whatever, counted]
        · rwa [atEnd] at mended'
    · obtain ⟨truncated, more, b, r, mended, atEnd⟩ := (second a).mends late
      obtain ⟨taken, split, counted, whatever⟩ := first.ok ran
      refine ⟨truncated, more, b, r, andThen_eq_ok.mpr ⟨a, _, ?_, mended⟩, atEnd⟩
      rw [split, List.append_assoc, whatever, counted]

theorem single (h : Steady p) : Single p where
  toLawful := h.toLawful
  noRepeat run := by
    obtain ⟨truncated, _⟩ := h.mends run
    cases truncated

end Steady

namespace Single

theorem done (a : α) : Single (fun r => .ok (a, r)) := (Steady.done a).single

theorem fails {e : DecodeError} (other : ∀ offset, e ≠ .duplicateConstant offset) :
    Single (fun _ => .error e : Reading α) where
  toLawful := .fails e
  noRepeat run := other _ (Except.error.inj run)

theorem andThen {p : Reading α} {f : Nat → α → Reading β} (first : Single p)
    (second : ∀ offset a, Single (f offset a)) : Single (p.andThen f) where
  toLawful := first.toLawful.andThen fun offset a => (second offset a).toLawful
  noRepeat {r offset} run := by
    rcases andThen_eq_error.mp run with early | ⟨a, next, _, late⟩
    · exact first.noRepeat early
    · exact (second r.offset a).noRepeat late

end Single

end Reading

/-! ### What is read from an image -/

namespace Reader

open Reading (Lawful Single Steady)

theorem take_eq (offset : Nat) (bytes : List UInt8) (part : Part) (n : Nat) :
    take ⟨offset, bytes⟩ part n =
      if n ≤ bytes.length then .ok (bytes.take n, ⟨offset + n, bytes.drop n⟩)
      else .error (.truncated part offset) := by
  have enough : min n bytes.length = n ↔ n ≤ bytes.length := by omega
  simp only [take, List.splitAt_eq, List.length_take, enough]

/-- Taking bytes is steady. -/
theorem steady_take (part : Part) (n : Nat) : Steady (fun r => r.take part n) where
  ok {offset bytes front r} run := by
    simp only [take_eq] at run
    split at run
    · rename_i enough
      cases run
      have length : (bytes.take n).length = n := List.length_take_of_le enough
      refine ⟨bytes.take n, (List.take_append_drop n bytes).symm, by rw [length], fun rest => ?_⟩
      rw [take_eq, if_pos (by rw [List.length_append, length]; omega), length,
        List.take_left' length, List.drop_left' length]
    · cases run
  error {offset bytes e} run uncut more := by
    simp only [take_eq] at run
    split at run
    · cases run
    · cases run
      cases uncut
  moves k offset bytes := by
    simp only [take_eq]
    split
    · simp only [Reading.shift, Nat.add_right_comm]
    · rfl
  mends {offset bytes e} run := by
    simp only [take_eq] at run
    split at run
    · cases run
    · rename_i short
      cases run
      have length : (bytes ++ List.replicate (n - bytes.length) 0).length = n := by
        rw [List.length_append, List.length_replicate]
        omega
      exact ⟨rfl, _, _, _, (take_eq ..).trans (if_pos (Nat.le_of_eq length.symm)),
        List.drop_eq_nil_of_le (Nat.le_of_eq length)⟩

theorem steady_number (part : Part) (n : Nat) : Steady (fun r => r.number part n) :=
  (steady_take part n).andThen fun _ => .done _

theorem steady_word8 (part : Part) : Steady (fun r => r.word8 part) :=
  (steady_number part 1).andThen fun _ => .done _

theorem steady_word16 (part : Part) : Steady (fun r => r.word16 part) :=
  (steady_number part 2).andThen fun _ => .done _

theorem steady_captures (n : Nat) (done : List Capture) : Steady (captures n done) := by
  induction n generalizing done with
  | zero => exact .done _
  | succ _ ih =>
    exact (steady_word8 .captureKind).andThen fun kind =>
      (steady_word16 .captureIndex).andThen fun index => ih (⟨kind != 0, index⟩ :: done)

theorem steady_operand (shape : Shape) : Steady (fun r => r.operand shape) := by
  have given (operand : Operand) (layout : operand.shape = shape) :
      Steady (fun r => .ok ((⟨operand, layout⟩ : { o : Operand // o.shape = shape }), r)) := .done _
  cases shape with
  | none => exact given .none rfl
  | jump => exact (steady_word16 .jumpOffset).andThen fun word => given (.jump word.toInt16) rfl
  | index => exact (steady_word16 .index).andThen fun word => given (.index word) rfl
  | count => exact (steady_word16 .count).andThen fun word => given (.count word) rfl
  | captures =>
    exact (steady_word16 .captureCount).andThen fun n =>
      (steady_captures n.toNat []).andThen fun list => given (.captures list) rfl

theorem steady_word32 (part : Part) : Steady (fun r => r.word32 part) :=
  (steady_number part 4).andThen fun _ => .done _

theorem steady_word64 (part : Part) : Steady (fun r => r.word64 part) :=
  (steady_number part 8).andThen fun _ => .done _

theorem payload_string (start : Nat) : (fun r : Reader => r.payload start 2) =
    Reading.andThen (fun r => r.word16 .stringLength) fun _ size =>
      Reading.andThen (fun r => r.take .string size.toNat) fun place bytes =>
        (String.fromUTF8? ⟨bytes.toArray⟩).elim (fun _ => .error (.invalidText place))
          fun text r => .ok (.string text, r) := by
  funext r
  simp only [payload, Reading.andThen]
  cases r.word16 .stringLength with
  | error => rfl
  | ok x =>
    simp only [bind, Except.bind]
    cases x.2.take .string x.1.toNat with
    | error => rfl
    | ok y =>
      simp only
      cases String.fromUTF8? ⟨y.1.toArray⟩ <;> rfl

theorem single_payload (start : Nat) (tag : UInt8) : Single (fun r => r.payload start tag) := by
  have given (c : Constant) : Single (fun r => .ok (c, r)) := .done c
  have text : Single (fun r => r.payload start 2) := by
    rw [payload_string]
    refine (steady_word16 .stringLength).single.andThen fun _ size =>
      (steady_take .string size.toNat).single.andThen fun place bytes => ?_
    cases String.fromUTF8? ⟨bytes.toArray⟩ with
    | none => exact .fails (by simp)
    | some text => exact given (.string text)
  unfold payload
  split
  · exact (steady_word32 .int).single.andThen fun _ word => given (.int word.toInt32)
  · exact (steady_word64 .double).single.andThen fun _ word => given (.double word)
  · exact text
  · exact (steady_word32 .float).single.andThen fun _ word => given (.float word)
  · exact (steady_word64 .long).single.andThen fun _ word => given (.long word.toInt64)
  · exact (steady_word16 .functionEntry).single.andThen fun _ entry =>
      (steady_word8 .functionArity).single.andThen fun _ arity => given (.function entry arity)
  · exact .fails (by simp)

/-- One constant is never a repetition. -/
theorem single_constant : Single constant :=
  (steady_word8 .constantTag).single.andThen fun start tag => single_payload start tag

/-- The constants behind one are read knowing it, unless it repeats another. -/
theorem constants_succ (n : Nat) (pool : ConstantPool) : constants (n + 1) pool =
    Reading.andThen constant fun start c =>
      (pool.pushNew? c).elim (fun _ => .error (.duplicateConstant start)) (constants n) := by
  funext r
  simp only [constants, Reading.andThen]
  cases r.constant with
  | error => rfl
  | ok x =>
    simp only [bind, Except.bind]
    cases pool.pushNew? x.1 <;> rfl

theorem lawful_constants (n : Nat) (pool : ConstantPool) : Lawful (constants n pool) := by
  induction n generalizing pool with
  | zero => exact .done pool
  | succ _ ih =>
    rw [constants_succ]
    refine single_constant.toLawful.andThen fun start c => ?_
    cases pool.pushNew? c with
    | none => exact .fails _
    | some pool => exact ih pool

theorem lawful_pool : Lawful pool :=
  (steady_word16 .constantCount).toLawful.andThen fun _ n => lawful_constants n.toNat ∅

end Reader

end Bindery.Machine
