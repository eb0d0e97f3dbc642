import Bindery.Proofs.Chains
import Bindery.Proofs.JumpPatching
import Bindery.Proofs.WellFormed

/-!
Code written into a buffer.

The code of an expression is computed part by part, and the distance of a jump from the size of what
it jumps over. A writer that has only a buffer can not know that size yet: it leaves a placeholder,
goes on, and patches the jump when it stands at the target. `Write` is that writer, with the steps
of `CodeBuffer` and nothing else; what it leaves in the buffer is the code that is computed.
-/

namespace Bindery

open Emit (Code Fragment Item jumpSize)
open Machine (CodeBuffer EmitError Instruction LoopExit Opcode Outcome toDistance toWord16 toWord8)
open Machine.CodeBuffer (placeholder)

/-! ### Two ways to the same answer -/

/-- Both give results that `R` relates, or both fail with the same error. A distance that does not
fit a 64-bit word has no counterpart: code of that size can not be held. -/
inductive EndsAlike {α β : Type} (R : α → β → Prop) : Except EmitError α → Except EmitError β → Prop
  | ok {a : α} {b : β} : R a b → EndsAlike R (.ok a) (.ok b)
  | error (e : EmitError) : EndsAlike R (.error e) (.error e)
  | far {gap : Int} {y : Except EmitError β} : 2 ^ 63 ≤ gap.natAbs →
      EndsAlike R (.error (.valueOutOfRange .jumpOffset gap .i16)) y

namespace EndsAlike

variable {α β γ δ : Type} {R : α → β → Prop} {S : γ → δ → Prop}

variable {x : Except EmitError α} {y : Except EmitError β}

theorem bind {f : α → Except EmitError γ} {g : β → Except EmitError δ} (first : EndsAlike R x y)
    (next : ∀ a b, R a b → EndsAlike S (f a) (g b)) : EndsAlike S (x >>= f) (y >>= g) := by
  cases first with
  | ok related => exact next _ _ related
  | error e => exact .error e
  | far large => exact .far large

theorem mono {S : α → β → Prop} (first : EndsAlike R x y) (weaker : ∀ a b, R a b → S a b) :
    EndsAlike S x y := by
  cases first with
  | ok related => exact .ok (weaker _ _ related)
  | error e => exact .error e
  | far large => exact .far large

/-- What is left to do is only to write the result in another way. -/
theorem map_left {S : γ → β → Prop} {f : α → γ} (first : EndsAlike R x y)
    (next : ∀ a b, R a b → S (f a) b) : EndsAlike S (x >>= fun a => pure (f a)) y := by
  cases first with
  | ok related => exact .ok (next _ _ related)
  | error e => exact .error e
  | far large => exact .far large

/-- The first result may be used as one that was given. -/
theorem with_ok (first : EndsAlike R x y) : EndsAlike (fun a b => x = .ok a ∧ R a b) x y := by
  cases first with
  | ok related => exact .ok ⟨rfl, related⟩
  | error e => exact .error e
  | far large => exact .far large

/-- The same step on both sides. -/
theorem of_eq (x : Except EmitError α) : EndsAlike Eq x x := by
  cases x with
  | ok => exact .ok rfl
  | error e => exact .error e

end EndsAlike

namespace Emit

@[simp] theorem size_jump {op : Opcode} (d : Int16) (layout : op.shape = .jump) :
    (Instruction.jump op d layout).size = jumpSize := rfl

theorem shape_goto : Opcode.goto.shape = .jump := rfl

theorem shape_gotoDropFalse : Opcode.gotoDropFalse.shape = .jump := rfl

theorem shape_gotoDropTrue : Opcode.gotoDropTrue.shape = .jump := rfl

theorem goto_eq (d : Int16) : Instruction.goto d = .jump .goto d shape_goto := rfl

theorem skip_eq (d : Int16) :
    Instruction.gotoDrop false d = .jump .gotoDropFalse d shape_gotoDropFalse := rfl

end Emit

variable {operand target : Nat}

namespace Machine.CodeBuffer

def putCode (b : CodeBuffer) (code : Code) : CodeBuffer := b.putBytes (encodeAll code)

@[ext] theorem ext {b c : CodeBuffer} (same : b.toList = c.toList) : b = c := by
  cases b
  cases c
  exact congrArg mk (Array.toList_inj.mp same)

@[simp] theorem putCode_nil (b : CodeBuffer) : b.putCode [] = b := by
  ext1
  simp [putCode, encodeAll]

theorem putCode_putCode (b : CodeBuffer) (x y : Code) :
    (b.putCode x).putCode y = b.putCode (x ++ y) := by
  ext1
  simp [putCode, encodeAll]

@[simp] theorem size_putCode (b : CodeBuffer) (code : Code) :
    (b.putCode code).size = b.size + Code.size code := by
  simp [size_eq_length, putCode, length_encodeAll, Code.size]

variable {op : Opcode} {gap : Int}

/-- A jump without its target is a jump as far as the placeholder says. -/
theorem putJump_eq (b : CodeBuffer) (layout : op.shape = .jump) :
    b.putJump op = (b.size + 1, b.putCode [.jump op placeholder layout]) := by
  refine Prod.ext rfl (ext ?_)
  rw [putCode, toList_putBytes, encodeAll, List.flatMap_singleton]
  exact toList_put16_putOpcode b op placeholder.toUInt16

/-- Two bytes are overwritten in the middle. -/
theorem set16_putBytes (b : CodeBuffer) (pre post : List UInt8) (old word : UInt16) :
    (b.putBytes (pre ++ (bytes16 old ++ post))).set16 (b.size + pre.length) word =
      ⟨b.putBytes (pre ++ (bytes16 word ++ post)), .ok ()⟩ := by
  have two (word : UInt16) : bytes16 word = [.ofNat (word.toNat / 256), .ofNat word.toNat] := by
    simp [bytes16, bytesOf]
  rw [set16, if_pos (by simp [size_eq_length, two]; omega)]
  congr 1
  ext1
  have list : (b.putBytes (pre ++ (bytes16 old ++ post))).bytes.toList =
      b.toList ++ (pre ++ (bytes16 old ++ post)) := toList_putBytes ..
  rw [toList_putBytes, toList, Array.toList_setIfInBounds, Array.toList_setIfInBounds, list, two,
    two, size_eq_length]
  simp [Nat.add_assoc]

/-- The distance of a patch is the one computed from sizes. -/
theorem distanceTo_alike (operand target : Nat)
    (same : gap = (target : Int) - (operand + 2 : Nat)) :
    EndsAlike Eq (toDistance gap) (distanceTo operand target) := by
  have wraps : distanceTo operand target = toDistance (gap.bmod (2 ^ 64)) := by
    rw [distanceTo, Int64.toInt_sub, Int64.toInt_add, Int64.toInt_ofNat', Int64.toInt_ofNat', same]
    simp
  rw [wraps]
  rcases Nat.lt_or_ge gap.natAbs (2 ^ 63) with small | large
  · rw [Int.bmod_eq_of_le (by omega) (by omega)]
    exact .of_eq _
  · rw [toDistance, if_neg (by omega)]
    exact .far large

/-- A jump is patched in the middle of code. -/
theorem patchJump_alike (b : CodeBuffer) (pre post : Code) (layout : op.shape = .jump)
    (old : Int16) (here : operand = b.size + Code.size pre + 1)
    (same : gap = (target : Int) - (operand + 2 : Nat)) :
    EndsAlike (fun d c => c = b.putCode (pre ++ .jump op d layout :: post)) (toDistance gap)
      ((b.putCode (pre ++ .jump op old layout :: post)).patchJump operand target) := by
  have split (d : Int16) : encodeAll (pre ++ .jump op d layout :: post) =
      (encodeAll pre ++ [op.byte]) ++ (bytes16 d.toUInt16 ++ encodeAll post) := by
    simp [encodeAll, Instruction.jump, Instruction.encode, Operand.encode]
  have length : (encodeAll pre ++ [op.byte]).length = Code.size pre + 1 := by
    rw [List.length_append, length_encodeAll]
    rfl
  have distance := distanceTo_alike operand target same
  rw [patchJump]
  generalize toDistance gap = x at *
  generalize distanceTo operand target = y at *
  cases distance with
  | @ok d _ equal =>
    cases equal
    have set := b.set16_putBytes (encodeAll pre ++ [op.byte]) (encodeAll post) old.toUInt16
      d.toUInt16
    rw [← split, ← split, length, ← Nat.add_assoc, ← here] at set
    rw [Outcome.check, putCode, set]
    exact .ok rfl
  | error e => exact .error e
  | far large => exact .far large

/-- A jump back is written with its target. -/
theorem putJumpTo_alike (b : CodeBuffer) (layout : op.shape = .jump)
    (same : gap = (target : Int) - (b.size + 3 : Nat)) :
    EndsAlike (fun d c => c = b.putCode [.jump op d layout]) (toDistance gap)
      (b.putJumpTo op target) := by
  have distance := distanceTo_alike (b.size + 1) target same
  rw [putJumpTo]
  generalize toDistance gap = x at *
  generalize distanceTo (b.size + 1) target = y at *
  cases distance with
  | @ok d _ equal =>
    cases equal
    refine .ok (ext ?_)
    rw [putCode, toList_putBytes, encodeAll, List.flatMap_singleton]
    exact toList_put16_putOpcode b op d.toUInt16
  | error e => exact .error e
  | far large => exact .far large

def patchAll (b : CodeBuffer) (target : Nat) (operands : List Nat) : Except EmitError CodeBuffer :=
  operands.foldlM (fun b operand => b.patchJump operand target) b

theorem patchAll_cons (b : CodeBuffer) (target operand : Nat) (operands : List Nat) :
    b.patchAll target (operand :: operands) =
      ((b.patchJump operand target : Except EmitError CodeBuffer) >>= fun b =>
        b.patchAll target operands) := List.foldlM_cons

end Machine.CodeBuffer

namespace Emit

/-! ### Chains of tests -/

def testOpcode : Bool → Opcode
  | true => .gotoTrueOrDrop
  | false => .gotoFalseOrDrop

theorem shape_testOpcode (value : Bool) : (testOpcode value).shape = .jump := by
  cases value <;> rfl

theorem gotoOrDrop_eq (value : Bool) (d : Int16) :
    Instruction.gotoOrDrop value d = .jump (testOpcode value) d (shape_testOpcode value) := by
  cases value <;> rfl

/-- Operands joined by tests that have no target yet. -/
def openTests (value : Bool) : List Code → Code
  | [] => []
  | [last] => last
  | operand :: next :: rest =>
    operand ++ .gotoOrDrop value placeholder :: openTests value (next :: rest)

/-- The operands of these tests, in code that starts at `start`. -/
def testOperands (start : Nat) : List Code → List Nat
  | [] | [_] => []
  | operand :: next :: rest =>
    (start + operand.size + 1) :: testOperands (start + operand.size + jumpSize) (next :: rest)

theorem size_openTests (value : Bool) (operands : List Code) :
    (openTests value operands).size = testsSize operands := by
  induction operands with
  | nil => rfl
  | cons _ rest ih =>
    cases rest with
    | nil => simp [openTests, testsSize]
    | cons =>
      rw [testsSize_cons (List.cons_ne_nil _ _), ← ih, openTests, Code.size_append, Code.size_cons,
        size_gotoOrDrop]
      omega

/-- Patching the tests of a chain joins its operands. -/
theorem patchAll_tests_alike (b : CodeBuffer) (value : Bool) (pre : Code) (operands : List Code)
    {size : Nat} (whole : size = testsSize operands) (ends : target = b.size + pre.size + size) :
    EndsAlike (fun code c => c = b.putCode (pre ++ code)) (joinTests value size operands)
      ((b.putCode (pre ++ openTests value operands)).patchAll target
        (testOperands (b.size + pre.size) operands)) := by
  induction operands generalizing pre size with
  | nil => exact .ok rfl
  | cons operand rest ih =>
    cases rest with
    | nil => exact .ok rfl
    | cons next rest =>
      rw [testsSize_cons (List.cons_ne_nil _ _)] at whole
      have remaining : size - (operand.size + jumpSize) = testsSize (next :: rest) := by omega
      rw [joinTests, testOperands, CodeBuffer.patchAll_cons, openTests, gotoOrDrop_eq,
        ← List.append_assoc]
      · refine (b.patchJump_alike (pre ++ operand) _ (shape_testOpcode value) _ ?_ ?_).bind ?_
        · rw [Code.size_append, Nat.add_assoc b.size]
        · have three : jumpSize = 3 := rfl
          omega
        · rintro d _ rfl
          have jump : Code.size (pre ++ operand ++ [.gotoOrDrop value d]) =
              pre.size + operand.size + jumpSize := by simp [Nat.add_assoc]
          have others := ih (pre ++ operand ++ [.gotoOrDrop value d]) remaining (by omega)
          rw [jump, ← Nat.add_assoc, ← Nat.add_assoc, ← List.append_cons, gotoOrDrop_eq] at others
          refine others.map_left ?_
          rintro code _ rfl
          simp [gotoOrDrop_eq]
      · exact List.cons_ne_nil _ _

end Emit

/-! ### Code written into a buffer -/

/-- A loop that is being written: the number of locals below its body, and the operands of the
jumps out of it. -/
structure OpenLoop where
  base : Nat
  breaks : List Nat
  continues : List Nat

def OpenLoop.wait (loop : OpenLoop) (operand : Nat) : LoopExit → OpenLoop
  | .breaks => { loop with breaks := loop.breaks ++ [operand] }
  | .continues => { loop with continues := loop.continues ++ [operand] }

/-- What is known while code is written into a buffer, with the loops around the current place,
the innermost first. -/
structure Writing where
  emission : Emission
  code : CodeBuffer
  loops : List OpenLoop

abbrev Write := StateT Writing (Except EmitError)

namespace Write

variable {α : Type}

/-- A step that writes nothing. -/
def know (step : Emit α) : Write α := fun w => do
  let (a, emission) ← step w.emission
  return (a, { w with emission })

def put (code : Code) : Write Unit := fun w => return ((), { w with code := w.code.putCode code })

def here : Write Nat := fun w => return (w.code.size, w)

/-- Writes a jump without its target, and gives the offset of its operand. -/
def jump (op : Opcode) : Write Nat := fun w =>
  let (operand, code) := w.code.putJump op
  return (operand, { w with code })

def jumpTo (op : Opcode) (target : Nat) : Write Unit := fun w => do
  let code ← (w.code.putJumpTo op target : Except EmitError CodeBuffer)
  return ((), { w with code })

def patch (operands : List Nat) (target : Nat) : Write Unit := fun w => do
  let code ← w.code.patchAll target operands
  return ((), { w with code })

def each : List (Write Unit) → Write Unit
  | [] => return ()
  | step :: rest => do
    step
    each rest

/-- Writes operands with a test between any two, and gives the operands of the tests. -/
def tests (value : Bool) : List (Write Unit) → Write (List Nat)
  | [] => return []
  | [last] => do
    last
    return []
  | step :: next :: rest => do
    step
    let exit ← jump (Emit.testOpcode value)
    return exit :: (← tests value (next :: rest))

def beginLoop : Write Unit := fun w =>
  return ((), { w with loops := ⟨w.emission.frames.current.size, [], []⟩ :: w.loops })

/-- Points the jumps out of the innermost loop to where they lead: `continue` to `resume`, and
`break` behind what is written. -/
def endLoop (resume : Nat) : Write Unit := fun w =>
  match w.loops with
  | [] => return ((), w)
  | loop :: outer => (do
      patch loop.continues resume
      patch loop.breaks (← here)) { w with loops := outer }

/-- A jump out of the innermost loop waits to be patched. -/
def wait (exit : LoopExit) (operand : Nat) : Write Unit := fun w =>
  return ((), { w with loops := w.loops.modifyHead (·.wait operand exit) })

def leave (exit : LoopExit) (span : Span) : Write Unit := fun w =>
  match w.loops with
  | [] => throw (.jumpOutsideLoop exit span)
  | loop :: _ => (do
      put (← know (Emit.discardFrom loop.base))
      wait exit (← jump .goto)) w

/-- Writes the body of a function, which the loops around it do not reach into. -/
def apart (body : Write Unit) : Write Unit := fun w => do
  let ((), inner) ← body { w with loops := [] }
  return ((), { inner with loops := w.loops })

end Write

namespace Bound

open Write

theorem sizeOf_le_of_mem_chain {op : BinaryOperation} {y : Expression} :
    ∀ {x : Expression}, y ∈ x.chain op → sizeOf y ≤ sizeOf x
  | .binary .., mem => by
    rw [Expression.chain] at mem
    split at mem
    · simp only [Expression.binary.sizeOf_spec]
      rcases List.mem_append.mp mem with first | second
      · have := sizeOf_le_of_mem_chain first
        omega
      · have := sizeOf_le_of_mem_chain second
        omega
    · cases List.mem_singleton.mp mem
      exact Nat.le_refl _
  | .literal .., mem | .reference .., mem | .assignment .., mem | .unary .., mem
  | .parenthesized .., mem | .call .., mem | .ternary .., mem | .error .., mem => by
    cases List.mem_singleton.mp mem
    exact Nat.le_refl _

theorem sizeOf_lt_of_mem_chains {op : BinaryOperation} {x left right : Expression} {ty : Ty}
    {span : Span} (mem : x ∈ left.chain op ++ right.chain op) :
    sizeOf x < sizeOf (Expression.binary op left right ty span) := by
  simp only [Expression.binary.sizeOf_spec]
  rcases List.mem_append.mp mem with first | second
  · have := sizeOf_le_of_mem_chain first
    omega
  · have := sizeOf_le_of_mem_chain second
    omega

def Expression.write (symbols : SymbolTable) : Expression → Write Unit
  | .literal value _ => do put (← know (Emit.literal value))
  | .reference s .. => do put [Emit.load (← know (Emit.resolve symbols s))]
  | .assignment s value .. => do
    value.write symbols
    put [Emit.store (← know (Emit.resolve symbols s))]
  | .binary op left right .. =>
    match op.lowering with
    | .apply code => do
      left.write symbols
      right.write symbols
      put code
    | .test value => do
      let exits ← tests value
        ((left.chain op ++ right.chain op).attach.map fun operand => operand.1.write symbols)
      patch exits (← here)
    | .concat => do
      let operands := (left.chain op ++ right.chain op).reverse
      each (operands.attach.map fun operand => operand.1.write symbols)
      put [.concat (← know (toWord16 .operandCount operands.length))]
  | .unary op operand .. => do
    operand.write symbols
    put op.code
  | .parenthesized inner _ => inner.write symbols
  | .call target arguments .. => do
    each (arguments.map (·.write symbols))
    target.write symbols
    put [.call]
  | .ternary condition yes no .. => do
    condition.write symbols
    let skip ← jump .gotoDropFalse
    yes.write symbols
    let leave ← jump .goto
    patch [skip] (← here)
    no.write symbols
    patch [leave] (← here)
  | .error span => throw (.errorNode span)
termination_by x => sizeOf x
decreasing_by
  all_goals first
    | exact sizeOf_lt_of_mem_chains operand.2
    | exact sizeOf_lt_of_mem_chains (List.mem_reverse.mp operand.2)
    | decreasing_tactic

end Bound

/-! ### Steps side by side -/

namespace Writing

/-- The code is written, and the constants and variables are known as `e` says. -/
def wrote (w : Writing) (code : Code) (e : Emission) : Writing := ⟨e, w.code.putCode code, w.loops⟩

@[simp] theorem wrote_nil (w : Writing) : w.wrote [] w.emission = w := by
  rw [wrote, CodeBuffer.putCode_nil]

@[simp] theorem wrote_wrote (w : Writing) (a b : Code) (e e' : Emission) :
    (w.wrote a e).wrote b e' = w.wrote (a ++ b) e' := by
  simp [wrote, CodeBuffer.putCode_putCode]

@[simp] theorem emission_wrote (w : Writing) (code : Code) (e : Emission) :
    (w.wrote code e).emission = e := rfl

@[simp] theorem size_wrote (w : Writing) (code : Code) (e : Emission) :
    (w.wrote code e).code.size = w.code.size + code.size := by
  simp [wrote]

end Writing

namespace EndsAlike

variable {α β γ δ : Type} {e : Emission} {w : Writing} {S : γ × Emission → δ × Writing → Prop}

variable {m : Emit α} {k : α → Emit γ} {l : β → Write δ} {x : Except EmitError α} {f : α → γ}
    {n : Write δ}

theorem step {n : Write β} {R : α × Emission → β × Writing → Prop} (first : EndsAlike R (m e) (n w))
    (next : ∀ a e' b w', R (a, e') (b, w') → EndsAlike S (k a e') (l b w')) :
    EndsAlike S ((m >>= k) e) ((n >>= l) w) :=
  first.bind fun p r => next p.1 p.2 r.1 r.2

/-- A check of a number beside a step of the writer. -/
theorem check {n : Write β} {R : α → β × Writing → Prop} (first : EndsAlike R x (n w))
    (next : ∀ a b w', R a (b, w') → EndsAlike S (k a e) (l b w')) :
    EndsAlike S ((liftM x >>= k) e) ((n >>= l) w) := by
  change EndsAlike S _ (n w >>= fun r => l r.1 r.2)
  generalize n w = y at first
  cases first with
  | ok related => exact next _ _ _ related
  | error err => exact .error err
  | far large => exact .far large

/-- The same at the end of both. -/
theorem check_last {R : α → δ × Writing → Prop} (first : EndsAlike R x (n w))
    (next : ∀ a r, R a r → S (f a, e) r) :
    EndsAlike S (((liftM x : Emit α) >>= fun a => pure (f a)) e) (n w) := by
  generalize n w = y at first
  cases first with
  | ok related => exact .ok (next _ _ related)
  | error err => exact .error err
  | far large => exact .far large

theorem lift {x : Except EmitError γ} {R : γ → δ × Writing → Prop} (first : EndsAlike R x (n w))
    (next : ∀ a r, R a r → S (a, e) r) : EndsAlike S ((liftM x : Emit γ) e) (n w) := by
  rw [← bind_pure (liftM x : Emit γ)]
  exact first.check_last next

theorem last {R : α × Emission → δ × Writing → Prop} (first : EndsAlike R (m e) (n w))
    (next : ∀ a e' r, R (a, e') r → S (f a, e') r) :
    EndsAlike S ((m >>= fun a => pure (f a)) e) (n w) :=
  first.map_left fun p r related => next p.1 p.2 r related

end EndsAlike

namespace Write

variable {α β : Type}

theorem know_alike (step : Emit α) (w : Writing) :
    EndsAlike (fun p r => r = (p.1, { w with emission := p.2 })) (step w.emission)
      (know step w) := by
  unfold know
  cases step w.emission with
  | ok => exact .ok rfl
  | error err => exact .error err

theorem know_step {γ : Type} {k : α → Emit γ} {l : α → Write β} {e : Emission} {w : Writing}
    {S : γ × Emission → β × Writing → Prop} (step : Emit α) (known : w.emission = e)
    (next : ∀ a e', EndsAlike S (k a e') (l a { w with emission := e' })) :
    EndsAlike S ((step >>= k) e) ((know step >>= l) w) := by
  subst known
  refine (know_alike step w).step ?_
  rintro a e' _ _ ⟨⟩
  exact next a e'

variable {op : Opcode}

theorem jump_bind (layout : op.shape = .jump) (k : Nat → Write β) (w : Writing) :
    (jump op >>= k) w = k (w.code.size + 1)
      (w.wrote [.jump op placeholder layout] w.emission) := by
  change (jump op w >>= fun r => k r.1 r.2) = _
  rw [jump, CodeBuffer.putJump_eq _ layout]
  rfl

theorem here_bind (k : Nat → Write β) (w : Writing) : (here >>= k) w = k w.code.size w := rfl

theorem put_bind (code : Code) (k : Unit → Write β) (w : Writing) :
    (put code >>= k) w = k () (w.wrote code w.emission) := rfl

/-- A jump is patched in code that is written. -/
theorem patch_alike (w : Writing) (pre post : Code) (layout : op.shape = .jump) (e : Emission)
    {w' : Writing} {gap : Int}
    (written : w' = w.wrote (pre ++ .jump op placeholder layout :: post) e)
    (here : operand = w.code.size + pre.size + 1)
    (same : gap = (target : Int) - (operand + 2 : Nat)) :
    EndsAlike (fun d r => r.2 = w.wrote (pre ++ .jump op d layout :: post) e) (toDistance gap)
      (patch [operand] target w') := by
  subst written
  have patched := w.code.patchJump_alike pre post layout placeholder here same
  change EndsAlike _ _ ((w.code.putCode _).patchAll target [operand] >>= _)
  rw [CodeBuffer.patchAll_cons, ← bind_pure (toDistance gap), bind_assoc]
  refine patched.bind ?_
  rintro d _ rfl
  exact .ok rfl

/-- The tests of a chain are patched in code that is written. -/
theorem patch_tests_alike (w : Writing) (value : Bool) (codes : List Code) (e : Emission) :
    EndsAlike (fun code r => r.2 = w.wrote code e)
      (Emit.joinTests value (Emit.testsSize codes) codes)
      (patch (Emit.testOperands w.code.size codes) (w.code.size + Emit.testsSize codes)
        (w.wrote (Emit.openTests value codes) e)) := by
  have joined := Emit.patchAll_tests_alike w.code value [] codes rfl rfl
  rw [← bind_pure (Emit.joinTests ..)]
  refine joined.bind ?_
  rintro code _ rfl
  exact .ok rfl

end Write

/-- What the writer does to its buffer is to write the code that is emitted. -/
def Refines (emit : Emit Code) (write : Write Unit) : Prop :=
  ∀ w : Writing, EndsAlike (fun p r => r.2 = w.wrote p.1 p.2) (emit w.emission) (write w)

namespace Refines

open Write

variable {m m' : Emit Code} {n n' : Write Unit}

theorem step {β γ : Type} {k : Code → Emit γ} {l : Unit → Write β} {e : Emission} {w : Writing}
    {S : γ × Emission → β × Writing → Prop} (first : Refines m n) (known : w.emission = e)
    (next : ∀ code e', EndsAlike S (k code e') (l () (w.wrote code e'))) :
    EndsAlike S ((m >>= k) e) ((n >>= l) w) := by
  subst known
  refine (first w).step ?_
  rintro code e' _ _ rfl
  exact next code e'

theorem put (code : Code) : Refines (pure code) (Write.put code) := fun _ => .ok rfl

theorem know {α : Type} (step : Emit α) (f : α → Code) :
    Refines (f <$> step) (do Write.put (f (← Write.know step))) := by
  intro w
  rw [map_eq_pure_bind]
  exact know_step step rfl fun a e => .ok rfl

/-- Code written part by part refines its parts put together. -/
theorem seq (first : Refines m n) (second : Refines m' n') :
    Refines (do let a ← m; let b ← m'; return a ++ b) (do n; n') := by
  intro w
  refine (first w).step ?_
  rintro a e _ _ rfl
  refine (second (w.wrote a e)).last ?_
  rintro b e' r same
  rw [same, w.wrote_wrote]

/-- Code is written, and more behind it. -/
theorem andPut (first : Refines m n) (code : Code) :
    Refines (do return (← m) ++ code) (do n; Write.put code) := by
  simpa using first.seq (put code)

end Refines

namespace Bound

open Write

variable {symbols : SymbolTable}

theorem argumentCode_eq (arguments : List Expression) :
    argumentCode symbols arguments =
      (do return (← arguments.mapM (·.emit symbols)).flatten) := by
  induction arguments with
  | nil => simp [argumentCode]
  | cons _ _ ih => simp [argumentCode, ih, Expression.emit]

variable {operands : List Expression}

/-- Operands that are written one by one. -/
theorem each_alike (all : ∀ x ∈ operands, Refines (x.emit symbols) (x.write symbols))
    (w : Writing) :
    EndsAlike (fun p r => p.1.length = operands.length ∧ r.2 = w.wrote p.1.flatten p.2)
      (operands.mapM (·.emit symbols) w.emission) (each (operands.map (·.write symbols)) w) := by
  induction operands generalizing w with
  | nil => exact .ok ⟨rfl, w.wrote_nil.symm⟩
  | cons _ _ ih =>
    obtain ⟨first, others⟩ := List.forall_mem_cons.mp all
    rw [List.mapM_cons]
    refine (first w).step ?_
    rintro code e _ _ rfl
    refine (ih others (w.wrote code e)).last ?_
    rintro codes e' r ⟨length, same⟩
    refine ⟨congrArg (· + 1) length, ?_⟩
    rw [same, w.wrote_wrote, List.flatten_cons]

/-- Operands written with an open test behind each but the last. -/
theorem tests_alike (value : Bool)
    (all : ∀ x ∈ operands, Refines (x.emit symbols) (x.write symbols)) (w : Writing) :
    EndsAlike (fun p r => p.1.length = operands.length ∧
        r = (Emit.testOperands w.code.size p.1, w.wrote (Emit.openTests value p.1) p.2))
      (operands.mapM (·.emit symbols) w.emission)
      (tests value (operands.map (·.write symbols)) w) := by
  induction operands generalizing w with
  | nil => exact .ok ⟨rfl, Prod.ext rfl w.wrote_nil.symm⟩
  | cons _ rest ih =>
    obtain ⟨first, others⟩ := List.forall_mem_cons.mp all
    rw [List.mapM_cons]
    cases rest with
    | nil =>
      refine (first w).step ?_
      rintro code e _ _ rfl
      exact .ok ⟨rfl, rfl⟩
    | cons =>
      refine (first w).step ?_
      rintro code e _ _ rfl
      rw [jump_bind (Emit.shape_testOpcode value), ← Emit.gotoOrDrop_eq, w.wrote_wrote]
      refine (ih others (w.wrote (code ++ [.gotoOrDrop value placeholder]) e)).step ?_
      rintro codes e' _ _ ⟨length, ⟨⟩⟩
      cases codes with
      | nil => cases length
      | cons =>
        refine .ok ⟨congrArg (· + 1) length, ?_⟩
        simp [Emit.testOperands, Emit.openTests, Nat.add_assoc]

/-- The writer does to its buffer what the code of an expression says. -/
theorem Expression.write_refines (x : Expression) : Refines (x.emit symbols) (x.write symbols) := by
  induction size : sizeOf x using Nat.strongRecOn generalizing x with
  | ind _ ih =>
    subst size
    cases x with
    | literal value span =>
      have code : (Expression.literal value span).emit symbols = id <$> Emit.literal value := by
        rw [Expression.emit, Expression.operands]
        simp
      rw [code, Expression.write]
      exact .know (Emit.literal value) id
    | reference s ty span =>
      have code : (Expression.reference s ty span).emit symbols =
          (fun slot => [Emit.load slot]) <$> Emit.resolve symbols s := by
        rw [Expression.emit, Expression.operands]
        simp
      rw [code, Expression.write]
      exact .know _ fun slot => [Emit.load slot]
    | assignment s value ty span =>
      have code : (Expression.assignment s value ty span).emit symbols = (do
          let code ← value.emit symbols
          let store ← (fun slot => [Emit.store slot]) <$> Emit.resolve symbols s
          return code ++ store) := by
        rw [Expression.emit, Expression.operands]
        simp [Expression.emit]
      rw [code, Expression.write]
      exact (ih _ (by decreasing_tactic) value rfl).seq (.know _ fun slot => [Emit.store slot])
    | unary op operand ty span =>
      have code : (Expression.unary op operand ty span).emit symbols =
          (do return (← operand.emit symbols) ++ op.code) := by
        rw [Expression.emit, Expression.operands]
        simp [Expression.emit]
      rw [code, Expression.write]
      exact (ih _ (by decreasing_tactic) operand rfl).andPut op.code
    | parenthesized inner span =>
      have code : (Expression.parenthesized inner span).emit symbols = inner.emit symbols := by
        rw [Expression.emit, Expression.operands]
        simp [Expression.emit]
      rw [code, Expression.write]
      exact ih _ (by decreasing_tactic) inner rfl
    | error span =>
      have code : (Expression.error span).emit symbols = throw (.errorNode span) := by
        rw [Expression.emit, Expression.operands]
        rfl
      rw [code, Expression.write]
      exact fun w => .error _
    | call target arguments ty span =>
      have code : (Expression.call target arguments ty span).emit symbols = (do
          let code ← argumentCode symbols arguments
          let target ← (do return (← target.emit symbols) ++ [.call])
          return code ++ target) := by
        rw [Expression.emit, Expression.operands]
        simp [Expression.emit]
      have all : ∀ x ∈ arguments, Refines (x.emit symbols) (x.write symbols) := fun x mem =>
        ih _ (by decreasing_tactic) x rfl
      rw [code, Expression.write, argumentCode_eq]
      exact Refines.seq (fun w => (each_alike all w).last fun _ _ _ related => related.2)
        ((ih _ (by decreasing_tactic) target rfl).andPut [.call])
    | binary op left right ty span =>
      have all : ∀ x ∈ left.chain op ++ right.chain op,
          Refines (x.emit symbols) (x.write symbols) := fun x mem =>
        ih _ (sizeOf_lt_of_mem_chains mem) x rfl
      have operands : (Expression.binary op left right ty span).chain op =
          left.chain op ++ right.chain op := by
        rw [Expression.chain, if_pos rfl]
      rw [Expression.write]
      cases lowered : op.lowering with
      | apply code =>
        have code : (Expression.binary op left right ty span).emit symbols = (do
            let first ← left.emit symbols
            let second ← (do return (← right.emit symbols) ++ code)
            return first ++ second) := by
          rw [Expression.emit, Expression.operands, lowered]
          simp [Expression.emit]
        rw [code]
        exact (ih _ (by decreasing_tactic) left rfl).seq
          ((ih _ (by decreasing_tactic) right rfl).andPut _)
      | test value =>
        rw [Expression.emit_test lowered, operands]
        simp only [List.attach_map_val]
        intro w
        refine (tests_alike value all w).step ?_
        rintro codes e _ _ ⟨_, ⟨⟩⟩
        rw [here_bind, w.size_wrote, Emit.size_openTests]
        exact (patch_tests_alike w value codes e).lift fun _ _ same => same
      | concat =>
        obtain rfl : op = .concat := by cases op <;> first | rfl | cases lowered
        rw [Expression.emit_concat, operands]
        simp only [List.attach_map_val]
        intro w
        have all' : ∀ x ∈ (left.chain .concat ++ right.chain .concat).reverse,
            Refines (x.emit symbols) (x.write symbols) := fun x mem =>
          all x (List.mem_reverse.mp mem)
        refine (each_alike all' w).step ?_
        rintro codes e _ _ ⟨length, rfl⟩
        rw [← length]
        refine know_step _ rfl fun count e' => .ok ?_
        exact w.wrote_wrote ..
    | ternary condition yes no ty span =>
      have code : (Expression.ternary condition yes no ty span).emit symbols = (do
          let test ← condition.emit symbols
          let yes ← yes.emit symbols
          let skip ← toDistance (Code.size yes + jumpSize : Nat)
          let no ← no.emit symbols
          let leave ← toDistance (Code.size no)
          return test ++ .gotoDrop false skip :: (yes ++ .goto leave :: no)) := by
        rw [Expression.emit, Expression.operands]
        simp [Expression.emit]
      rw [code, Expression.write]
      intro w
      refine (ih _ (by decreasing_tactic) condition rfl).step rfl fun test e => ?_
      rw [jump_bind Emit.shape_gotoDropFalse]
      refine (ih _ (by decreasing_tactic) yes rfl).step rfl fun yes e => ?_
      rw [jump_bind Emit.shape_goto, here_bind]
      refine (patch_alike w test (yes ++ [.goto placeholder])
        Emit.shape_gotoDropFalse e ?_ ?_ ?_).check ?_
      · simp [Emit.goto_eq]
      · simp
      · simp [jumpSize]
        omega
      · rintro skip _ _ rfl
        refine (ih _ (by decreasing_tactic) no rfl).step rfl fun no e => ?_
        rw [here_bind]
        refine (patch_alike w (test ++ .gotoDrop false skip :: yes) no Emit.shape_goto e
          ?_ ?_ ?_).check_last ?_
        · simp [Emit.goto_eq, Emit.skip_eq]
        · simp [Nat.add_assoc]
        · simp [jumpSize]
          omega
        · rintro leave r same
          rw [same]
          simp [Emit.goto_eq]

end Bound

end Bindery
