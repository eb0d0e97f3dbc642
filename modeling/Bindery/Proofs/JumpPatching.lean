import Bindery.Machine.Buffer
import Bindery.Proofs.Execution
import Mathlib.Algebra.Group.Nat.Defs

/-!
Jumps in code under construction.

The distance of a jump is taken between 64-bit words, which is the difference of the two places as
long as both are small (`CodeBuffer.distanceTo_eq`). So a jump is patched exactly if its target is
in reach and its operand in the buffer (`CodeBuffer.patchJump_cases`), and then the two bytes of the
operand are all that changes. A `Draft` is a buffer with the jumps that were written into it and the
patches they got. Jumps stand apart from each other, so that a patch of one leaves the others as
they are: each keeps the target of its last patch (`Draft.standing_run`), and all bytes but those of
patched operands stay as they were written (`Draft.keeps_run`). `CodeBuffer.jumps_patched` puts this
together.
-/

namespace Bindery.Machine

/-! ### Bytes in place -/

def StandsAt (code : List UInt8) (offset : Nat) (bytes : List UInt8) : Prop :=
  ∀ i < bytes.length, code[offset + i]? = bytes[i]?

namespace StandsAt

variable {code code' bytes : List UInt8} {offset : Nat}

/-- What stands at an offset is read there first. -/
theorem drop_eq (stands : StandsAt code offset bytes) :
    code.drop offset = bytes ++ code.drop (offset + bytes.length) := by
  refine List.ext_getElem? fun i => ?_
  rw [List.getElem?_drop, List.getElem?_append]
  split
  · exact stands i ‹_›
  · rw [List.getElem?_drop]
    congr 1
    omega

theorem append_right (code bytes : List UInt8) : StandsAt (code ++ bytes) code.length bytes := by
  intro i _
  rw [List.getElem?_append_right (Nat.le_add_right ..), Nat.add_sub_cancel_left]

theorem cons {byte : UInt8} (first : code[offset]? = some byte)
    (rest : StandsAt code (offset + 1) bytes) : StandsAt code offset (byte :: bytes) := by
  intro i lt
  cases i with
  | zero => exact first
  | succ i =>
    rw [List.getElem?_cons_succ, ← rest i (Nat.lt_of_succ_lt_succ lt)]
    congr 1
    omega

/-- Only the bytes in these places matter. -/
theorem congr (stands : StandsAt code offset bytes)
    (same : ∀ i, offset ≤ i → i < offset + bytes.length → code'[i]? = code[i]?) :
    StandsAt code' offset bytes := fun i lt =>
  (same (offset + i) (Nat.le_add_right ..) (Nat.add_lt_add_left lt offset)).trans (stands i lt)

/-- An instruction that stands at an offset is the one that is fetched. -/
theorem fetch {i : Instruction} (stands : StandsAt code offset i.encode)
    (encodable : i.Encodable) : fetch code offset = some i := by
  rw [Machine.fetch, stands.drop_eq, Reader.instruction_encode encodable]

end StandsAt

namespace CodeBuffer

def JumpAt (b : CodeBuffer) (offset : Nat) (op : Opcode) (target : Int) : Prop :=
  ∃ i, fetch b.toList offset = some i ∧ i.opcode = op ∧ Located.target? ⟨offset, i⟩ = some target

variable {b : CodeBuffer} {offset operand target : Nat} {op : Opcode}

theorem jumpAt_of_standsAt {distance : Int16} {target : Int} (layout : op.shape = .jump)
    (stands : StandsAt b.toList offset (Instruction.jump op distance layout).encode)
    (leads : ((offset + 3 : Nat) : Int) + distance.toInt = target) : b.JumpAt offset op target := by
  refine ⟨_, stands.fetch fun captures same => ?_, rfl, congrArg some leads⟩
  cases same

/-! ### Distances -/

/-- How far the target of a jump is from the end of its operand. -/
def gap (operand target : Nat) : Int := (target : Int) - (operand + 2 : Nat)

def InReach (operand target : Nat) : Prop :=
  -32768 ≤ gap operand target ∧ gap operand target ≤ 32767

instance (operand target : Nat) : Decidable (InReach operand target) :=
  inferInstanceAs (Decidable (_ ∧ _))

/-- Between small places, the difference of words is the difference of numbers. -/
theorem distanceTo_eq (small : operand < 2 ^ 62) (small' : target < 2 ^ 62) :
    distanceTo operand target = toDistance (gap operand target) := by
  have two : Int64.toInt 2 = 2 := rfl
  have behind : (Int64.ofNat operand + 2).toInt = (operand + 2 : Nat) := by
    rw [Int64.toInt_add, Int64.toInt_ofNat_of_lt (by omega), two,
      Int.bmod_eq_of_le (by omega) (by omega)]
    rfl
  rw [distanceTo, Int64.toInt_sub, behind, Int64.toInt_ofNat_of_lt (by omega),
    Int.bmod_eq_of_le (by omega) (by omega)]
  rfl

/-- A target in reach has its distance. -/
theorem distanceTo_of_inReach (small : operand < 2 ^ 62) (small' : target < 2 ^ 62)
    (reach : InReach operand target) :
    ∃ distance, distanceTo operand target = .ok distance ∧
      ((operand + 2 : Nat) : Int) + distance.toInt = target := by
  have fits : toDistance (gap operand target) = .ok (.ofInt (gap operand target)) := if_pos reach
  refine ⟨_, (distanceTo_eq small small').trans fits, ?_⟩
  rw [toDistance_eq_ok fits, gap]
  omega

/-- A target out of reach is refused with the gap. -/
theorem distanceTo_of_not_inReach (small : operand < 2 ^ 62) (small' : target < 2 ^ 62)
    (far : ¬ InReach operand target) :
    distanceTo operand target =
      .error (.valueOutOfRange .jumpOffset (gap operand target) .i16) :=
  (distanceTo_eq small small').trans (if_neg far)

/-! ### Patches -/

theorem size_eq_length (b : CodeBuffer) : b.size = b.toList.length := rfl

theorem toList_put16_putOpcode (b : CodeBuffer) (op : Opcode) (word : UInt16) :
    ((b.putOpcode op).put16 word).toList = b.toList ++ op.byte :: bytes16 word := by
  simp [put16, putOpcode, put8]

/-- An opcode with an operand is written as a whole or not at all. -/
theorem toList_check {α : Type} (b : CodeBuffer) (op : Opcode) (word : α → UInt16)
    (operand : Except EmitError α) :
    ∃ bytes, (Outcome.check b operand fun a =>
      ⟨(b.putOpcode op).put16 (word a), Except.ok ()⟩).state.toList = b.toList ++ bytes := by
  cases operand with
  | error => exact ⟨[], (List.append_nil _).symm⟩
  | ok a => exact ⟨_, toList_put16_putOpcode b op (word a)⟩

/-- The two bytes are overwritten, and nothing else. -/
theorem set16_of_le (within : offset + 2 ≤ b.size) (word : UInt16) :
    ∃ b', b.set16 offset word = ⟨b', .ok ()⟩ ∧ b'.size = b.size ∧
      (∀ i, i ≠ offset → i ≠ offset + 1 → b'.toList[i]? = b.toList[i]?) ∧
      StandsAt b'.toList offset (bytes16 word) := by
  refine ⟨_, if_pos within, ?_, ?_, ?_⟩
  · simp [size]
  · intro i first second
    simp only [toList, Array.toList_setIfInBounds]
    rw [List.getElem?_set_ne second.symm, List.getElem?_set_ne first.symm]
  · have length : b.bytes.toList.length = b.size := rfl
    have bytes : bytes16 word = [.ofNat (word.toNat / 256), .ofNat word.toNat] := by
      simp [bytes16, bytesOf]
    rw [bytes]
    simp only [toList, Array.toList_setIfInBounds]
    refine .cons ?_ (.cons ?_ fun i lt => absurd lt (Nat.not_lt_zero i))
    · exact (List.getElem?_set_ne (by omega)).trans (List.getElem?_set_self (by omega))
    · exact List.getElem?_set_self (by rw [List.length_set]; omega)

/-- What a patch makes of a buffer: the operand leads to the target, and nothing else is
changed. -/
structure Patched (b : CodeBuffer) (operand target : Nat) (b' : CodeBuffer) : Prop where
  size : b'.size = b.size
  others : ∀ i, i ≠ operand → i ≠ operand + 1 → b'.toList[i]? = b.toList[i]?
  written : ∃ distance : Int16, StandsAt b'.toList operand (bytes16 distance.toUInt16) ∧
    ((operand + 2 : Nat) : Int) + distance.toInt = target

/-- A patch fails because the target is out of reach, or because the operand is not in the buffer,
and leaves the buffer as it is, or it is done. -/
theorem patchJump_cases (b : CodeBuffer) (small : operand < 2 ^ 62) (small' : target < 2 ^ 62) :
    (¬ InReach operand target ∧ b.patchJump operand target =
      ⟨b, .error (.valueOutOfRange .jumpOffset (gap operand target) .i16)⟩) ∨
    (InReach operand target ∧ b.size < operand + 2 ∧
      b.patchJump operand target = ⟨b, .error (.patchOutOfBounds operand b.size)⟩) ∨
    (InReach operand target ∧ operand + 2 ≤ b.size ∧
      ∃ b', b.patchJump operand target = ⟨b', .ok ()⟩ ∧ b.Patched operand target b') := by
  by_cases reach : InReach operand target
  · obtain ⟨distance, given, leads⟩ := distanceTo_of_inReach small small' reach
    have run : b.patchJump operand target = b.set16 operand distance.toUInt16 := by
      rw [patchJump, given]
      rfl
    rcases Nat.lt_or_ge b.size (operand + 2) with short | within
    · exact .inr (.inl ⟨reach, short, run.trans (if_neg (Nat.not_le.mpr short))⟩)
    · obtain ⟨b', set, size, others, stands⟩ := set16_of_le within distance.toUInt16
      exact .inr (.inr ⟨reach, within, b', run.trans set, size, others, distance, stands, leads⟩)
  · refine .inl ⟨reach, ?_⟩
    rw [patchJump, distanceTo_of_not_inReach small small' reach]
    rfl

/-- A jump that stands just before the operand leads to the target. -/
theorem Patched.jumpAt {b' : CodeBuffer} (patched : b.Patched (offset + 1) target b')
    (layout : op.shape = .jump) (here : b.toList[offset]? = some op.byte) :
    b'.JumpAt offset op target := by
  obtain ⟨distance, stands, leads⟩ := patched.written
  refine jumpAt_of_standsAt layout (.cons ?_ stands) leads
  exact (patched.others offset (by omega) (by omega)).trans here

/-- A jump to a known target is written at the end. -/
theorem putJumpTo_cases (b : CodeBuffer) (layout : op.shape = .jump) (small : b.size + 1 < 2 ^ 62)
    (small' : target < 2 ^ 62) :
    (¬ InReach (b.size + 1) target ∧ b.putJumpTo op target =
      ⟨b, .error (.valueOutOfRange .jumpOffset (gap (b.size + 1) target) .i16)⟩) ∨
    (InReach (b.size + 1) target ∧ ∃ b', b.putJumpTo op target = ⟨b', .ok ()⟩ ∧
      b'.size = b.size + 3 ∧ b.toList <+: b'.toList ∧ b'.JumpAt b.size op target) := by
  by_cases reach : InReach (b.size + 1) target
  · obtain ⟨distance, given, leads⟩ := distanceTo_of_inReach small small' reach
    have run : b.putJumpTo op target = ⟨(b.putOpcode op).put16 distance.toUInt16, .ok ()⟩ := by
      rw [putJumpTo, given]
      rfl
    have list : ((b.putOpcode op).put16 distance.toUInt16).toList =
        b.toList ++ (Instruction.jump op distance layout).encode := toList_put16_putOpcode ..
    refine .inr ⟨reach, _, run, ?_, list ▸ List.prefix_append .., ?_⟩
    · rw [size_eq_length, list, List.length_append, Instruction.length_encode, ← size_eq_length]
      rfl
    · exact jumpAt_of_standsAt layout (list ▸ .append_right _ _) leads
  · refine .inl ⟨reach, ?_⟩
    rw [putJumpTo, distanceTo_of_not_inReach small small' reach]
    rfl

end CodeBuffer

/-! ### Drafts -/

/-- What is done to code under construction. Words and opcodes are written as bytes. -/
inductive Edit where
  | bytes (bytes : List UInt8)
  | indexed (op : Opcode) (what : Quantity) (operand : Nat)
  | jumpTo (op : Opcode) (target : Nat)
  | jump (op : Opcode)
  | patch (operand target : Nat)
deriving DecidableEq, Repr

/-- Code under construction, with the operands and the opcodes of the jumps that were written
without their target, and with the operands and the targets of the patches that succeeded, the
newest first. -/
structure Draft where
  buffer : CodeBuffer
  jumps : List (Nat × Opcode)
  patches : List (Nat × Nat)
deriving DecidableEq, Repr

namespace Draft

def start (b : CodeBuffer) : Draft := ⟨b, [], []⟩

/-- Makes an edit, unless it writes something else as a jump, or patches what is not the operand
of a jump or is too far out. -/
def edit? (d : Draft) : Edit → Option Draft
  | .bytes bytes => some { d with buffer := d.buffer.putBytes bytes }
  | .indexed op what operand =>
    some { d with buffer := (d.buffer.putIndexed op what operand).state }
  | .jumpTo op target => some { d with buffer := (d.buffer.putJumpTo op target).state }
  | .jump op =>
    if op.isJump then
      let (operand, buffer) := d.buffer.putJump op
      some { d with buffer, jumps := (operand, op) :: d.jumps }
    else none
  | .patch operand target =>
    if operand ∈ d.jumps.map Prod.fst ∧ operand < 2 ^ 62 ∧ target < 2 ^ 62 then
      match d.buffer.patchJump operand target with
      | ⟨buffer, .ok ()⟩ => some { d with buffer, patches := (operand, target) :: d.patches }
      | ⟨buffer, .error _⟩ => some { d with buffer }
    else none

def run? (d : Draft) (edits : List Edit) : Option Draft := edits.foldlM edit? d

def lastPatch? (d : Draft) (operand : Nat) : Option Nat :=
  (d.patches.find? fun p => p.1 = operand).map Prod.snd

/-- Where a jump leads: to the target of its last patch, or as far as the placeholder says. -/
def target (d : Draft) (operand : Nat) : Int :=
  match d.lastPatch? operand with
  | some target => target
  | none => (operand + 2 : Nat) + CodeBuffer.placeholder.toInt

variable {d d' d'' : Draft}

variable {edit : Edit} {edits : List Edit} {bytes : List UInt8} {operand operand' target : Nat}
    {op : Opcode}

/-- An edit writes bytes at the end, possibly none, or a jump without its target, or it patches a
jump. -/
theorem edit?_cases (run : d.edit? edit = some d') :
    (∃ bytes, d'.buffer.toList = d.buffer.toList ++ bytes ∧ d'.jumps = d.jumps ∧
      d'.patches = d.patches) ∨
    (∃ op, ∃ layout : op.shape = .jump, d'.buffer.toList = d.buffer.toList ++
        (Instruction.jump op CodeBuffer.placeholder layout).encode ∧
      d'.jumps = (d.buffer.size + 1, op) :: d.jumps ∧ d'.patches = d.patches) ∨
    ∃ operand target, operand ∈ d.jumps.map Prod.fst ∧
      d.buffer.Patched operand target d'.buffer ∧ d'.jumps = d.jumps ∧
      d'.patches = (operand, target) :: d.patches := by
  cases edit with
  | bytes bytes =>
    cases run
    exact .inl ⟨bytes, CodeBuffer.toList_putBytes .., rfl, rfl⟩
  | indexed op what operand =>
    cases run
    obtain ⟨bytes, list⟩ := d.buffer.toList_check op id (toWord16 what operand)
    exact .inl ⟨bytes, list, rfl, rfl⟩
  | jumpTo op target =>
    cases run
    obtain ⟨bytes, list⟩ := d.buffer.toList_check op Int16.toUInt16
      (CodeBuffer.distanceTo (d.buffer.size + 1) target)
    exact .inl ⟨bytes, list, rfl, rfl⟩
  | jump op =>
    simp only [edit?] at run
    split at run
    · rename_i isJump
      cases run
      exact .inr (.inl ⟨op, eq_of_beq isJump, CodeBuffer.toList_put16_putOpcode .., rfl, rfl⟩)
    · cases run
  | patch operand target =>
    simp only [edit?] at run
    split at run
    · rename_i allowed
      obtain ⟨known, small, small'⟩ := allowed
      rcases d.buffer.patchJump_cases small small' with ⟨_, failed⟩ | ⟨_, _, failed⟩ |
        ⟨_, _, b', done, patched⟩
      · rw [failed] at run
        cases run
        exact .inl ⟨[], (List.append_nil _).symm, rfl, rfl⟩
      · rw [failed] at run
        cases run
        exact .inl ⟨[], (List.append_nil _).symm, rfl, rfl⟩
      · rw [done] at run
        cases run
        exact .inr (.inr ⟨operand, target, known, patched, rfl, rfl⟩)
    · cases run

theorem run?_cons_eq_some :
    d.run? (edit :: edits) = some d'' ↔
      ∃ d', d.edit? edit = some d' ∧ d'.run? edits = some d'' := by
  rw [run?, List.foldlM_cons]
  exact Option.bind_eq_some_iff

/-- Between two drafts the code has become longer, and only operands that were patched have
changed. -/
def Keeps (d d' : Draft) : Prop :=
  ∃ since, d'.patches = since ++ d.patches ∧ d.buffer.size ≤ d'.buffer.size ∧
    ∀ i < d.buffer.size, (∀ p ∈ since, i ≠ p.1 ∧ i ≠ p.1 + 1) →
      d'.buffer.toList[i]? = d.buffer.toList[i]?

theorem Keeps.refl (d : Draft) : d.Keeps d := ⟨[], rfl, Nat.le_refl _, fun _ _ _ => rfl⟩

theorem Keeps.trans (first : d.Keeps d') (second : d'.Keeps d'') : d.Keeps d'' := by
  obtain ⟨since, patches, longer, same⟩ := first
  obtain ⟨since', patches', longer', same'⟩ := second
  refine ⟨since' ++ since, by rw [patches', patches, List.append_assoc],
    Nat.le_trans longer longer', fun i lt untouched => ?_⟩
  obtain ⟨later, earlier⟩ := List.forall_mem_append.mp untouched
  exact (same' i (Nat.lt_of_lt_of_le lt longer) later).trans (same i lt earlier)

/-- What is written at the end changes nothing. -/
theorem Keeps.of_append (list : d'.buffer.toList = d.buffer.toList ++ bytes)
    (patches : d'.patches = d.patches) : d.Keeps d' := by
  refine ⟨[], patches, ?_, fun i lt _ => ?_⟩
  · rw [CodeBuffer.size_eq_length, CodeBuffer.size_eq_length, list, List.length_append]
    exact Nat.le_add_right ..
  · rw [list]
    exact List.getElem?_append_left lt

/-- An edit keeps all bytes but patched ones. -/
theorem keeps_edit (run : d.edit? edit = some d') : d.Keeps d' := by
  rcases edit?_cases run with ⟨bytes, list, _, patches⟩ | ⟨op, _, list, _, patches⟩ |
    ⟨operand, target, _, patched, _, patches⟩
  · exact .of_append list patches
  · exact .of_append list patches
  · refine ⟨[(operand, target)], patches, Nat.le_of_eq patched.size.symm, fun i _ untouched => ?_⟩
    obtain ⟨first, second⟩ := untouched _ List.mem_cons_self
    exact patched.others i first second

/-- A run of edits keeps all bytes but patched ones. -/
theorem keeps_run (run : d.run? edits = some d') : d.Keeps d' := by
  induction edits generalizing d with
  | nil =>
    cases run
    exact .refl _
  | cons _ _ ih =>
    obtain ⟨next, first, others⟩ := run?_cons_eq_some.mp run
    exact (keeps_edit first).trans (ih others)

/-- The jump with this operand stands in the code as it was written, but that it leads to the
target of its last patch. -/
structure HasJump (d : Draft) (operand : Nat) (op : Opcode) : Prop where
  pos : 0 < operand
  within : operand + 2 ≤ d.buffer.size
  written : ∃ (layout : op.shape = .jump) (distance : Int16),
    StandsAt d.buffer.toList (operand - 1) (Instruction.jump op distance layout).encode ∧
      ((operand + 2 : Nat) : Int) + distance.toInt = d.target operand

/-- All jumps stand in the code, apart from each other, and nothing behind the code is patched. -/
structure Standing (d : Draft) : Prop where
  has : ∀ j ∈ d.jumps, d.HasJump j.1 j.2
  apart : ∀ j ∈ d.jumps, ∀ k ∈ d.jumps, j.1 = k.1 ∨ j.1 + 3 ≤ k.1 ∨ k.1 + 3 ≤ j.1
  patches : ∀ p ∈ d.patches, p.1 ≤ d.buffer.size

theorem standing_start (b : CodeBuffer) : (start b).Standing where
  has _ mem := absurd mem List.not_mem_nil
  apart _ mem := absurd mem List.not_mem_nil
  patches _ mem := absurd mem List.not_mem_nil

/-- A jump stays as it is while its bytes and its last patch do. -/
theorem HasJump.of_keeps (has : d.HasJump operand op) (keeps : d.Keeps d')
    (same : d'.target operand = d.target operand)
    (untouched : ∀ i, operand - 1 ≤ i → i < operand + 2 →
      d'.buffer.toList[i]? = d.buffer.toList[i]?) : d'.HasJump operand op := by
  obtain ⟨pos, within, layout, distance, stands, leads⟩ := has
  obtain ⟨_, _, longer, _⟩ := keeps
  refine ⟨pos, Nat.le_trans within longer, layout, distance, stands.congr fun i le lt => ?_,
    leads.trans same.symm⟩
  rw [Instruction.length_encode] at lt
  change i < operand - 1 + 3 at lt
  exact untouched i le (by omega)

theorem target_of_patches (same : d'.patches = d.patches) :
    d'.target operand = d.target operand := by
  rw [target, target, lastPatch?, lastPatch?, same]

/-- The last patch of a jump decides. -/
theorem target_cons (patches : d'.patches = (operand', target) :: d.patches) (operand : Nat) :
    d'.target operand = if operand' = operand then (target : Int) else d.target operand := by
  by_cases here : operand' = operand
  · simp [Draft.target, lastPatch?, patches, here]
  · simp [Draft.target, lastPatch?, patches, here]

/-- What is written at the end leaves the jumps as they are. -/
theorem HasJump.append (has : d.HasJump operand op)
    (list : d'.buffer.toList = d.buffer.toList ++ bytes) (patches : d'.patches = d.patches) :
    d'.HasJump operand op := by
  refine has.of_keeps (.of_append list patches) (target_of_patches patches) fun i _ lt => ?_
  rw [list]
  exact List.getElem?_append_left (Nat.lt_of_lt_of_le lt has.within)

/-- A jump that is patched leads to the new target, and one that stands apart is not touched. -/
theorem HasJump.patch (has : d.HasJump operand op) (keeps : d.Keeps d')
    (patched : d.buffer.Patched operand' target d'.buffer)
    (patches : d'.patches = (operand', target) :: d.patches)
    (apart : operand = operand' ∨ operand + 3 ≤ operand' ∨ operand' + 3 ≤ operand) :
    d'.HasJump operand op := by
  have target := target_cons patches operand
  rcases apart with rfl | apart
  · obtain ⟨pos, within, layout, _, stands, _⟩ := has
    obtain ⟨distance, word, leads⟩ := patched.written
    refine ⟨pos, patched.size ▸ within, layout, distance, ?_, ?_⟩
    · have opcode : d.buffer.toList[operand - 1]? = some op.byte := stands 0 (Nat.succ_pos _)
      refine .cons ((patched.others _ (by omega) (by omega)).trans opcode) ?_
      rw [Nat.sub_add_cancel pos]
      exact word
    · rw [target, if_pos rfl, leads]
  · rw [if_neg (by omega)] at target
    have pos := has.pos
    exact has.of_keeps keeps target fun i le lt => patched.others i (by omega) (by omega)

/-- A jump that has just been written. -/
theorem HasJump.of_placeholder (layout : op.shape = .jump)
    (list : d'.buffer.toList = d.buffer.toList ++
      (Instruction.jump op CodeBuffer.placeholder layout).encode)
    (unpatched : ∀ p ∈ d'.patches, p.1 ≤ d.buffer.size) : d'.HasJump (d.buffer.size + 1) op := by
  refine ⟨Nat.succ_pos _, ?_, layout, CodeBuffer.placeholder, list ▸ .append_right _ _, ?_⟩
  · rw [d'.buffer.size_eq_length, list, List.length_append, Instruction.length_encode]
    exact Nat.le_refl _
  · have absent : d'.lastPatch? (d.buffer.size + 1) = none := by
      rw [lastPatch?, Option.map_eq_none_iff, List.find?_eq_none]
      intro p mem
      have := unpatched p mem
      simp only [decide_eq_true_eq]
      omega
    rw [target, absent]

/-- An edit leaves every jump with its target. -/
theorem standing_edit (standing : d.Standing) (run : d.edit? edit = some d') : d'.Standing := by
  have keeps := keeps_edit run
  have longer : d.buffer.size ≤ d'.buffer.size := by
    obtain ⟨_, _, longer, _⟩ := keeps
    exact longer
  have earlier : ∀ p ∈ d.patches, p.1 ≤ d'.buffer.size := fun p mem =>
    Nat.le_trans (standing.patches p mem) longer
  rcases edit?_cases run with ⟨bytes, list, jumps, patches⟩ | ⟨op, layout, list, jumps, patches⟩ |
    ⟨operand, target, known, patched, jumps, patches⟩
  · refine ⟨?_, jumps ▸ standing.apart, patches ▸ earlier⟩
    rw [jumps]
    exact fun j mem => (standing.has j mem).append list patches
  · refine ⟨?_, ?_, patches ▸ earlier⟩
    · rw [jumps, List.forall_mem_cons]
      exact ⟨.of_placeholder layout list (patches ▸ standing.patches),
        fun j mem => (standing.has j mem).append list patches⟩
    · have older : ∀ j ∈ d.jumps, j.1 + 3 ≤ d.buffer.size + 1 := fun j mem =>
        Nat.succ_le_succ (standing.has j mem).within
      rw [jumps]
      refine List.forall_mem_cons.mpr ⟨List.forall_mem_cons.mpr ⟨.inl rfl, fun k mem => ?_⟩,
        fun j mem => List.forall_mem_cons.mpr ⟨?_, standing.apart j mem⟩⟩
      · exact .inr (.inr (older k mem))
      · exact .inr (.inl (older j mem))
  · obtain ⟨k, member, rfl⟩ := List.mem_map.mp known
    refine ⟨?_, jumps ▸ standing.apart, ?_⟩
    · rw [jumps]
      exact fun j mem => (standing.has j mem).patch keeps patched patches
        (standing.apart j mem k member)
    · rw [patches, List.forall_mem_cons]
      have := (standing.has k member).within
      exact ⟨by omega, earlier⟩

/-- A run of edits leaves every jump with its target. -/
theorem standing_run (standing : d.Standing) (run : d.run? edits = some d') : d'.Standing := by
  induction edits generalizing d with
  | nil =>
    cases run
    exact standing
  | cons _ _ ih =>
    obtain ⟨next, first, others⟩ := run?_cons_eq_some.mp run
    exact ih (standing_edit standing first) others

/-- A jump leads where the last patch says. -/
theorem HasJump.jumpAt (has : d.HasJump operand op) :
    d.buffer.JumpAt (operand - 1) op (d.target operand) := by
  obtain ⟨pos, _, layout, distance, stands, leads⟩ := has
  refine CodeBuffer.jumpAt_of_standsAt layout stands ?_
  rw [← leads, show operand - 1 + 3 = operand + 2 by omega]

end Draft

/-- A patch fails because its target is out of reach or because its operand is not inside the
buffer, which stays as it is. Otherwise it changes the two bytes of the operand and nothing else,
and a jump whose opcode stands just before is read with the new target. A jump to a known target is
written in the same way, behind all other bytes, or not at all. While code is written, with jumps
whose targets come later, every such jump is read with the target of its last patch that succeeded,
or with the placeholder if there is none, and between any two moments no byte changes except in
operands that are patched. -/
theorem CodeBuffer.jumps_patched (b : CodeBuffer) :
    (∀ operand target, operand < 2 ^ 62 → target < 2 ^ 62 →
      (¬ InReach operand target ∧ b.patchJump operand target =
        ⟨b, .error (.valueOutOfRange .jumpOffset (gap operand target) .i16)⟩) ∨
      (InReach operand target ∧ b.size < operand + 2 ∧
        b.patchJump operand target = ⟨b, .error (.patchOutOfBounds operand b.size)⟩) ∨
      (InReach operand target ∧ operand + 2 ≤ b.size ∧
        ∃ b', b.patchJump operand target = ⟨b', .ok ()⟩ ∧ b'.size = b.size ∧
          (∀ i, i ≠ operand → i ≠ operand + 1 → b'.toList[i]? = b.toList[i]?) ∧
          ∀ offset op, operand = offset + 1 → op.isJump = true →
            b.toList[offset]? = some op.byte → b'.JumpAt offset op target)) ∧
    (∀ op target, op.isJump = true → b.size + 1 < 2 ^ 62 → target < 2 ^ 62 →
      (¬ InReach (b.size + 1) target ∧ b.putJumpTo op target =
        ⟨b, .error (.valueOutOfRange .jumpOffset (gap (b.size + 1) target) .i16)⟩) ∨
      (InReach (b.size + 1) target ∧ ∃ b', b.putJumpTo op target = ⟨b', .ok ()⟩ ∧
        b'.size = b.size + 3 ∧ b.toList <+: b'.toList ∧ b'.JumpAt b.size op target)) ∧
    ∀ edits d, (Draft.start b).run? edits = some d →
      (∀ operand op, (operand, op) ∈ d.jumps → 0 < operand ∧
        (∀ target, d.lastPatch? operand = some target →
          d.buffer.JumpAt (operand - 1) op target) ∧
        (d.lastPatch? operand = none →
          d.buffer.JumpAt (operand - 1) op ((operand + 2 : Nat) + placeholder.toInt))) ∧
      ∀ more d', d.run? more = some d' →
        ∃ since, d'.patches = since ++ d.patches ∧ d.buffer.size ≤ d'.buffer.size ∧
          ∀ i < d.buffer.size, (∀ p ∈ since, i ≠ p.1 ∧ i ≠ p.1 + 1) →
            d'.buffer.toList[i]? = d.buffer.toList[i]? := by
  refine ⟨fun operand target small small' => ?_, fun op target isJump small small' => ?_,
    fun edits d run => ⟨fun operand op mem => ?_, fun more d' run' => Draft.keeps_run run'⟩⟩
  · rcases b.patchJump_cases small small' with ⟨far, failed⟩ | ⟨reach, short, failed⟩ |
      ⟨reach, within, b', done, patched⟩
    · exact .inl ⟨far, failed⟩
    · exact .inr (.inl ⟨reach, short, failed⟩)
    · refine .inr (.inr ⟨reach, within, b', done, patched.size, patched.others, ?_⟩)
      rintro offset op rfl isJump here
      exact patched.jumpAt (eq_of_beq isJump) here
  · exact b.putJumpTo_cases (eq_of_beq isJump) small small'
  · have has := (Draft.standing_run (Draft.standing_start b) run).has _ mem
    have jumpAt := has.jumpAt
    refine ⟨has.pos, fun target patched => ?_, fun unpatched => ?_⟩
    · rwa [Draft.target, patched] at jumpAt
    · rwa [Draft.target, unpatched] at jumpAt

/-- A jump without its target, and a print behind it. -/
def loopHead : CodeBuffer := ⟨#[Opcode.goto.byte, 127, 255, Opcode.print.byte]⟩

/-- Two jumps without their targets and one back to the start. The first is patched three times, of
which the first is out of reach, with the patch of the second in between. -/
def loopEdits : List Edit :=
  [.jump .gotoDropFalse, .indexed .constant .index 70000, .bytes [Opcode.print.byte], .jump .goto,
    .patch 5 100000, .patch 5 0, .jumpTo .goto 0, .patch 9 14, .patch 5 7]

/-- A jump that is patched twice leads to the second target. -/
theorem CodeBuffer.loopHead_patched :
    (∃ b, loopHead.patchJump 1 3 = ⟨b, .ok ()⟩ ∧ b.JumpAt 0 .goto 3) ∧
    (∃ b, loopHead.putJumpTo .goto 0 = ⟨b, .ok ()⟩ ∧ b.JumpAt 4 .goto 0) ∧
    ∃ d, (Draft.start loopHead).run? loopEdits = some d ∧
      d.buffer.JumpAt 4 .gotoDropFalse 7 ∧ d.buffer.JumpAt 8 .goto 14 := by
  obtain ⟨patch, write, drafts⟩ := loopHead.jumps_patched
  refine ⟨?_, ?_, ?_⟩
  · rcases patch 1 3 (by decide) (by decide) with ⟨far, _⟩ | ⟨_, short, _⟩ |
      ⟨_, _, b, done, _, _, reads⟩
    · exact absurd (by decide) far
    · exact absurd short (by decide)
    · exact ⟨b, done, reads 0 .goto rfl rfl rfl⟩
  · rcases write .goto 0 rfl (by decide) (by decide) with ⟨far, _⟩ | ⟨_, b, done, _, _, reads⟩
    · exact absurd (by decide) far
    · exact ⟨b, done, reads⟩
  · have facts : ((Draft.start loopHead).run? loopEdits).map (fun d => (d.jumps, d.patches)) =
        some ([(9, .goto), (5, .gotoDropFalse)], [(5, 7), (9, 14), (5, 0)]) := by decide +kernel
    obtain ⟨d, run, lists⟩ := Option.map_eq_some_iff.mp facts
    obtain ⟨jumps, patches⟩ := Prod.mk.inj lists
    obtain ⟨reads, _⟩ := drafts _ d run
    refine ⟨d, run, (reads 5 .gotoDropFalse ?_).2.1 7 ?_, (reads 9 .goto ?_).2.1 14 ?_⟩
    · simp [jumps]
    · simp [Draft.lastPatch?, patches]
    · simp [jumps]
    · simp [Draft.lastPatch?, patches]

end Bindery.Machine
