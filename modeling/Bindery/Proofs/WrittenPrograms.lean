import Bindery.Proofs.Backpatching

/-!
Programs written into a buffer.

Inside a loop a writer leaves more jumps open than it can patch: those of `break` and `continue`
wait in the innermost loop until it ends, and then they are patched in the order they were written.
That gives the code that is computed by settling a loop's exits (`Fragment.closeLoop_alike`), and
so the same image (`Program.write_eq_emit`).
-/

namespace Bindery

open Emit (Code Fragment Item jumpSize shape_goto shape_gotoDropFalse shape_gotoDropTrue)
open Machine (CodeBuffer EmitError Instruction LoopExit Opcode Outcome toDistance toWord16 toWord8)
open Machine.CodeBuffer (placeholder)

namespace Emit.Fragment

/-- The operands of the open exits of one kind, in code that starts at `start`. -/
def exitOperands (kind : LoopExit) (start : Nat) : Fragment → List Nat
  | [] => []
  | .instruction i :: rest => exitOperands kind (start + i.size) rest
  | .exit e :: rest =>
    if e = kind then (start + 1) :: exitOperands kind (start + jumpSize) rest
    else exitOperands kind (start + jumpSize) rest

@[simp] theorem toCode_append (f g : Fragment) : toCode (f ++ g) = toCode f ++ toCode g :=
  List.map_append

@[simp] theorem size_toCode (f : Fragment) : Code.size (toCode f) = size f := by
  induction f with
  | nil => rfl
  | cons item _ ih =>
    rw [size_cons, ← ih]
    cases item <;> exact Code.size_cons ..

variable (kind : LoopExit) (start : Nat)

theorem exitOperands_append (f g : Fragment) :
    exitOperands kind start (f ++ g) =
      exitOperands kind start f ++ exitOperands kind (start + size f) g := by
  induction f generalizing start with
  | nil => rfl
  | cons item _ ih =>
    cases item with
    | instruction => simp [exitOperands, ih, Item.size, Nat.add_assoc]
    | exit =>
      simp only [List.cons_append, exitOperands, ih, size_cons, Item.size, Nat.add_assoc]
      split <;> rfl

theorem exitOperands_of_closed {f : Fragment} (closed : ∀ x, .exit x ∉ f) :
    exitOperands kind start f = [] := by
  induction f generalizing start with
  | nil => rfl
  | cons item _ ih =>
    cases item with
    | instruction => exact ih _ fun x mem => closed x (List.mem_cons_of_mem _ mem)
    | exit e => exact absurd List.mem_cons_self (closed e)

/-- Exits that wait keep their places. -/
theorem exitOperands_settled {target : LoopExit → Option Nat} {o : Nat} {f g : Fragment}
    (settled : Settled target o f g) (waits : target kind = none) :
    exitOperands kind start g = exitOperands kind start f := by
  induction settled generalizing start with
  | nil => rfl
  | keep _ ih => exact ih _
  | wait _ _ ih => simp only [exitOperands, ih]
  | @jump _ _ e _ _ _ known _ _ ih =>
    have other : e ≠ kind := by
      rintro rfl
      cases known.symm.trans waits
    rw [exitOperands, exitOperands, if_neg other, ← ih]
    rfl

/-- Patching the exits of one kind settles them. -/
theorem patchAll_exits_alike (b : CodeBuffer) (target : Nat) {offset : Nat}
    (settled rest : Fragment) (here : offset = size settled) :
    EndsAlike (fun out c => c = b.putCode (toCode out)) (settleFrom kind target offset settled rest)
      ((b.putCode (toCode (settled.reverse ++ rest))).patchAll (b.size + target)
        (exitOperands kind (b.size + offset) rest)) := by
  induction rest generalizing settled offset with
  | nil =>
    rw [List.append_nil]
    exact .ok rfl
  | cons item rest ih =>
    have moved (item : Item) : offset + item.size = size (item :: settled) := by
      rw [here, size_cons, Nat.add_comm]
    have shown (item : Item) :
        (item :: settled).reverse ++ rest = settled.reverse ++ item :: rest := by
      rw [List.reverse_cons, List.append_assoc, List.singleton_append]
    cases item with
    | instruction i =>
      have later := ih (.instruction i :: settled) (moved _)
      rw [shown, ← Nat.add_assoc] at later
      exact later
    | exit e =>
      rw [settleFrom, exitOperands]
      split
      · rw [CodeBuffer.patchAll_cons, toCode_append]
        refine (b.patchJump_alike (toCode settled.reverse) (toCode rest) shape_goto
          placeholder ?_ ?_).bind ?_
        · rw [size_toCode, size_reverse, here]
        · have three : jumpSize = 3 := rfl
          omega
        · rintro d _ rfl
          have later := ih (.instruction (.goto d) :: settled) (moved _)
          rw [shown, toCode_append, ← Nat.add_assoc] at later
          exact later
      · have later := ih (.exit e :: settled) (moved _)
        rw [shown, ← Nat.add_assoc] at later
        exact later

/-- Closing a loop is patching its exits. -/
theorem closeLoop_alike (b : CodeBuffer) (loop : Fragment) (resume : Nat) :
    EndsAlike (fun out c => c = b.putCode (toCode out)) (closeLoop loop resume) (do
      let c ← (b.putCode (toCode loop)).patchAll (b.size + resume)
        (exitOperands .continues b.size loop)
      c.patchAll c.size (exitOperands .breaks b.size loop)) := by
  have resumed := patchAll_exits_alike .continues b resume [] loop rfl
  refine resumed.with_ok.bind ?_
  rintro out _ ⟨settles, rfl⟩
  obtain ⟨_, rfl, settled⟩ := settleFrom_settled settles
  have left := patchAll_exits_alike .breaks b (size loop) [] out rfl
  rw [exitOperands_settled _ _ (settled 0) rfl] at left
  rw [CodeBuffer.size_putCode, size_toCode, (settled 0).size_eq]
  exact left

end Emit.Fragment

def OpenLoop.gain (start : Nat) (f : Fragment) (loop : OpenLoop) : OpenLoop where
  base := loop.base
  breaks := loop.breaks ++ f.exitOperands .breaks start
  continues := loop.continues ++ f.exitOperands .continues start

namespace Writing

/-- The code is written, and its exits wait in the innermost loop. -/
def after (w : Writing) (f : Fragment) (e : Emission) : Writing :=
  ⟨e, w.code.putCode f.toCode, w.loops.modifyHead (.gain w.code.size f)⟩

def base (w : Writing) : Option Nat := w.loops.head?.map OpenLoop.base

def enter (w : Writing) : Writing :=
  { w with loops := ⟨w.emission.frames.current.size, [], []⟩ :: w.loops }

variable (w : Writing) (f g : Fragment) (code : Code) (e e' : Emission)

@[simp] theorem emission_after : (w.after f e).emission = e := rfl

@[simp] theorem size_after : (w.after f e).code.size = w.code.size + f.size := by
  simp [after]

@[simp] theorem base_after : (w.after f e).base = w.base := by
  simp only [base, after]
  cases w.loops <;> rfl

@[simp] theorem base_wrote : (w.wrote code e).base = w.base := rfl

@[simp] theorem after_after : (w.after f e).after g e' = w.after (f ++ g) e' := by
  have gains : OpenLoop.gain (w.code.size + f.size) g ∘ OpenLoop.gain w.code.size f =
      OpenLoop.gain w.code.size (f ++ g) := by
    funext loop
    simp [OpenLoop.gain, Fragment.exitOperands_append]
  have loops : ((w.after f e).after g e').loops = (w.after (f ++ g) e').loops := by
    rw [after, after, after, List.modifyHead_modifyHead]
    simp [gains]
  simp only [after, Fragment.toCode_append, CodeBuffer.putCode_putCode] at loops ⊢
  rw [loops]

variable {f} in
theorem after_of_closed (closed : ∀ x, .exit x ∉ f) : w.after f e = w.wrote f.toCode e := by
  have same : OpenLoop.gain w.code.size f = id := by
    funext loop
    simp [OpenLoop.gain, Fragment.exitOperands_of_closed _ _ closed]
  rw [after, same, List.modifyHead_id]
  rfl

@[simp] theorem after_toFragment : w.after code.toFragment e = w.wrote code e := by
  rw [after_of_closed _ _ (Code.exit_not_mem code), Fragment.toCode_toFragment]

theorem after_nil : w.after [] w.emission = w := by
  rw [after_of_closed _ _ fun _ => List.not_mem_nil]
  exact w.wrote_nil

@[simp] theorem after_wrote : (w.wrote code e).after f e' = w.after (code.toFragment ++ f) e' := by
  rw [← after_toFragment, after_after]

@[simp] theorem wrote_after : (w.after f e).wrote code e' = w.after (f ++ code.toFragment) e' := by
  rw [← after_toFragment, after_after]

end Writing

namespace Write

variable {β : Type}

/-- A jump is patched in code with open exits. -/
theorem patch_after_alike (w : Writing) (pre post : Fragment) {op : Opcode}
    (layout : op.shape = .jump) (e : Emission) {w' : Writing} {operand target : Nat} {gap : Int}
    (written : w' = w.after (pre ++ .instruction (.jump op placeholder layout) :: post) e)
    (here : operand = w.code.size + pre.size + 1)
    (same : gap = (target : Int) - (operand + 2 : Nat)) :
    EndsAlike (fun d r => r.2 = w.after (pre ++ .instruction (.jump op d layout) :: post) e)
      (toDistance gap) (patch [operand] target w') := by
  have gains (d : Int16) :
      OpenLoop.gain w.code.size (pre ++ .instruction (.jump op d layout) :: post) =
        .gain w.code.size (pre ++ .instruction (.jump op placeholder layout) :: post) := by
    funext loop
    simp [OpenLoop.gain, Fragment.exitOperands_append, Fragment.exitOperands]
  let inside : Writing := { w with loops := w'.loops }
  have apart (d : Int16) : w.after (pre ++ .instruction (.jump op d layout) :: post) e =
      inside.wrote (pre.toCode ++ .jump op d layout :: post.toCode) e := by
    subst written
    simp [inside, Writing.after, Writing.wrote, gains d, Fragment.toCode, Item.toInstruction]
  have patched := patch_alike inside pre.toCode post.toCode layout e (written.trans (apart _))
    (by rw [here, Fragment.size_toCode]) same
  exact patched.mono fun d r same => same.trans (apart d).symm

theorem patch_bind (operands : List Nat) (target : Nat) (k : Unit → Write β) (w : Writing) :
    (patch operands target >>= k) w =
      (w.code.patchAll target operands >>= fun code => k () { w with code }) := by
  change ((w.code.patchAll target operands >>= _) >>= _) = _
  rw [bind_assoc]
  rfl

/-- A jump back is written with the distance computed from sizes. -/
theorem jumpTo_alike (w : Writing) {op : Opcode} (layout : op.shape = .jump)
    {target : Nat} {gap : Int} (same : gap = (target : Int) - (w.code.size + 3 : Nat)) :
    EndsAlike (fun d r => r.2 = w.wrote [.jump op d layout] w.emission) (toDistance gap)
      (jumpTo op target w) := by
  change EndsAlike _ _ ((w.code.putJumpTo op target : Except EmitError CodeBuffer) >>= _)
  rw [← bind_pure (toDistance gap)]
  refine (w.code.putJumpTo_alike layout same).bind ?_
  rintro d _ rfl
  exact .ok rfl

theorem beginLoop_bind (k : Unit → Write β) (w : Writing) :
    (beginLoop >>= k) w = k () w.enter := rfl

/-- Patching the open exits of a loop settles them. -/
theorem endLoop_alike (w : Writing) (loop : Fragment) (e : Emission) {resume target : Nat}
    (goesOn : target = w.code.size + resume) :
    EndsAlike (fun out r => r.2 = w.after out e) (Fragment.closeLoop loop resume)
      (endLoop target (w.enter.after loop e)) := by
  subst goesOn
  change EndsAlike _ _ ((patch _ _ >>= fun _ => here >>= fun n => patch _ n) _)
  rw [patch_bind]
  change EndsAlike _ _ (_ >>= fun c => CodeBuffer.patchAll c c.size _ >>= fun code =>
    pure ((), Writing.mk e code w.loops))
  rw [← bind_assoc, ← bind_pure (Fragment.closeLoop ..)]
  refine (Fragment.closeLoop_alike w.code loop resume).with_ok.bind ?_
  rintro out _ ⟨closes, rfl⟩
  have closed (x : LoopExit) : .exit x ∉ out := fun mem =>
    nomatch (Fragment.closeLoop_settled closes 0).waits mem
  exact .ok (w.after_of_closed _ closed).symm

theorem wait_eq (exit : LoopExit) (w : Writing) :
    wait exit (w.code.size + 1)
      (w.wrote [.jump .goto placeholder shape_goto] w.emission) =
        .ok ((), w.after [.exit exit] w.emission) := by
  have gains : OpenLoop.gain w.code.size [.exit exit] = (·.wait (w.code.size + 1) exit) := by
    funext loop
    cases exit <;> simp [OpenLoop.gain, OpenLoop.wait, Fragment.exitOperands]
  rw [Writing.after, gains]
  rfl

/-- `break` and `continue` leave an exit open. -/
theorem leave_alike (exit : LoopExit) (span : Span) (w : Writing) :
    EndsAlike (fun p r => r.2 = w.after p.1 p.2) (Bound.leaveLoop w.base exit span w.emission)
      (leave exit span w) := by
  cases loops : w.loops with
  | nil =>
    rw [Writing.base, leave, loops]
    exact .error _
  | cons loop =>
    rw [Writing.base, leave, loops]
    refine know_step (Emit.discardFrom loop.base) rfl fun code e => ?_
    rw [put_bind, jump_bind shape_goto, wait_eq, Writing.after_wrote]
    exact .ok rfl

end Write

/-- The same for code with open exits, in the loop that has `loop` locals below it and in a buffer
of `start` bytes. -/
def RefinesIn (loop : Option Nat) (start : Nat) (emit : Emit Fragment) (write : Write Unit) :
    Prop :=
  ∀ w : Writing, w.base = loop → w.code.size = start →
    EndsAlike (fun p r => r.2 = w.after p.1 p.2) (emit w.emission) (write w)

theorem RefinesIn.step {β γ : Type} {loop : Option Nat} {start : Nat} {m : Emit Fragment}
    {n : Write Unit} {k : Fragment → Emit γ} {l : Unit → Write β} {e : Emission} {w : Writing}
    {S : γ × Emission → β × Writing → Prop} (first : RefinesIn loop start m n)
    (known : w.emission = e) (around : w.base = loop) (place : w.code.size = start)
    (next : ∀ f e', EndsAlike S (k f e') (l () (w.after f e'))) :
    EndsAlike S ((m >>= k) e) ((n >>= l) w) := by
  subst known
  refine (first w around place).step ?_
  rintro f e' _ _ rfl
  exact next f e'

theorem Refines.closed {m : Emit Code} {n : Write Unit} (first : Refines m n) (loop : Option Nat)
    (start : Nat) : RefinesIn loop start (Code.toFragment <$> m) n := by
  intro w _ _
  rw [map_eq_pure_bind]
  refine (first w).last ?_
  rintro code e r same
  rw [same, w.after_toFragment]

/-- The body of a function leaves no exit to the loops around it. -/
theorem RefinesIn.apart {start : Nat} {m : Emit Fragment} {n : Write Unit}
    (inner : RefinesIn none start m n) (closed : ∀ {e f e'}, m e = .ok (f, e') → ∀ x, .exit x ∉ f)
    (loop : Option Nat) : RefinesIn loop start m (.apart n) := by
  intro w _ place
  change EndsAlike _ _ (n { w with loops := [] } >>= _)
  rw [← bind_pure (m w.emission)]
  refine (inner { w with loops := [] } rfl place).with_ok.bind ?_
  rintro ⟨f, e⟩ ⟨_, _⟩ ⟨run, rfl⟩
  refine .ok ?_
  rw [Writing.after_of_closed _ _ (closed run), Writing.after_of_closed _ _ (closed run)]
  rfl

namespace Bound

open Write

def functionValue (entry arity : Nat) (captures : List Machine.Capture) : Emit Code := do
  let entry ← toWord16 .functionEntry entry
  let arity ← toWord8 .functionArity arity
  let value ← Emit.constant (.function entry arity)
  let closure ← Emit.closure captures
  return value :: closure

def ending (insertReturn : Bool) : Code := if insertReturn then [.pushTrue, .ret] else []

mutual

def Statement.write (symbols : SymbolTable) : Statement → Write Unit
  | .function symbol parameters body insertReturn .. => do
    let skip ← jump .goto
    let entry ← here
    let store ← know (Emit.declare symbol)
    know Emit.pushFrame
    know Emit.pushBlock
    know (parameters.forM Emit.putLocal)
    apart do
      know Emit.pushBlock
      writeList symbols body
      put (← know Emit.popBlock)
    put (ending insertReturn)
    let _ ← know Emit.popBlock
    let captures ← know Emit.popFrame
    patch [skip] (← here)
    put (← know (functionValue entry parameters.length captures))
    put store
  | .declare symbol value _ => do
    value.write symbols
    put (← know (Emit.declare symbol))
  | .ifThen condition yes _ => do
    condition.write symbols
    let skip ← jump .gotoDropFalse
    yes.write symbols
    patch [skip] (← here)
  | .ifElse condition yes no _ => do
    condition.write symbols
    let skip ← jump .gotoDropFalse
    yes.write symbols
    let leave ← jump .goto
    patch [skip] (← here)
    no.write symbols
    patch [leave] (← here)
  | .whileLoop condition body _ => do
    beginLoop
    let start ← here
    condition.write symbols
    let exit ← jump .gotoDropFalse
    body.write symbols
    jumpTo .goto start
    patch [exit] (← here)
    endLoop start
  | .doWhile body condition _ => do
    beginLoop
    let start ← here
    body.write symbols
    let resume ← here
    condition.write symbols
    jumpTo .gotoDropTrue start
    endLoop resume
  | .block statements _ => do
    know Emit.pushBlock
    writeList symbols statements
    put (← know Emit.popBlock)
  | .returns (some value) _ => do
    value.write symbols
    put [.ret]
  | .returns none _ => put [.pushTrue, .ret]
  | .breakLoop span => leave .breaks span
  | .continueLoop span => leave .continues span
  | .print value _ => do
    value.write symbols
    put [.print]
  | .expression value _ => do
    value.write symbols
    put [.pop]

def writeList (symbols : SymbolTable) : List Statement → Write Unit
  | [] => return ()
  | s :: rest => do
    s.write symbols
    writeList symbols rest

end

variable {symbols : SymbolTable} {loop : Option Nat} {start : Nat}

theorem localCount_bind {β : Type} (k : Nat → Emit β) (e : Emission) :
    (Emit.localCount >>= k) e = k e.frames.current.size e := rfl

theorem wrapFunction_eq (arity : Nat) (captures : List Machine.Capture) (body : Fragment) :
    wrapFunction start arity captures body = (do
      let skip ← toDistance (Fragment.size body)
      let value ← functionValue (start + jumpSize) arity captures
      return .instruction (.goto skip) :: (body ++ value.toFragment)) := by
  simp [wrapFunction, functionValue]

def blockCode (symbols : SymbolTable) (loop : Option Nat) (start : Nat)
    (statements : List Statement) : Emit Fragment := do
  Emit.pushBlock
  let code ← emitList symbols loop start [] statements
  let discard ← Emit.popBlock
  return code ++ discard.toFragment

theorem block_alike {statements : List Statement}
    (inner : RefinesIn loop start (emitList symbols loop start [] statements)
      (writeList symbols statements)) :
    RefinesIn loop start (blockCode symbols loop start statements) (do
      know Emit.pushBlock
      writeList symbols statements
      put (← know Emit.popBlock)) := by
  intro w around place
  refine know_step _ rfl fun _ e => ?_
  refine inner.step rfl around place fun code e => ?_
  refine know_step _ rfl fun discard e => .ok ?_
  exact Writing.wrote_after ..

/-- What was written before is put in front. -/
theorem emitList_eq (written : Fragment) (statements : List Statement) :
    emitList symbols loop start written statements =
      (written.reverse ++ ·) <$> emitList symbols loop start [] statements := by
  induction statements generalizing start written with
  | nil => simp [emitList]
  | cons _ _ ih =>
    simp only [emitList, map_bind]
    congr 1
    funext code
    rw [ih (code.reverseAux written), ih (code.reverseAux [])]
    simp

theorem emitList_cons (s : Statement) (rest : List Statement) :
    emitList symbols loop start [] (s :: rest) = (do
      let code ← s.emit symbols loop start
      return code ++ (← emitList symbols loop (start + code.size) [] rest)) := by
  simp only [emitList]
  congr 1
  funext code
  rw [emitList_eq]
  simp

theorem closed_blockCode {statements : List Statement} {e e' : Emission} {f : Fragment}
    (run : blockCode symbols none start statements e = .ok (f, e')) (x : LoopExit) :
    .exit x ∉ f := by
  have block : (Statement.block statements ⟨0, 0⟩).emit symbols none start e = .ok (f, e') := by
    rw [Statement.emit]
    exact run
  exact (Statement.writes_of_emit _ block).exit_not_mem

theorem functionCode_eq (symbol : SymbolId) (parameters : List SymbolId) (body : List Statement)
    (insertReturn : Bool) (name span : Span) :
    (Statement.function symbol parameters body insertReturn name span).emit symbols loop start = (do
      let store ← Emit.declare symbol
      Emit.pushFrame
      Emit.pushBlock
      parameters.forM Emit.putLocal
      let body ← blockCode symbols none (start + jumpSize) body
      let _ ← Emit.popBlock
      let captures ← Emit.popFrame
      let skip ← toDistance (Fragment.size (body ++ (ending insertReturn).toFragment))
      let value ← functionValue (start + jumpSize) parameters.length captures
      return .instruction (.goto skip) :: (body ++ (ending insertReturn).toFragment) ++
        (value ++ store).toFragment) := by
  cases insertReturn <;> simp [Statement.emit, blockCode, wrapFunction_eq, ending, Int.add_assoc]

mutual

/-- Statements are written as they are emitted. -/
theorem Statement.write_refines (loop : Option Nat) (start : Nat) :
    ∀ s : Statement, RefinesIn loop start (s.emit symbols loop start) (s.write symbols)
  | .function _ _ body insertReturn .. => by
    rw [functionCode_eq, Statement.write]
    intro w around place
    have entry : (w.wrote [.jump .goto placeholder shape_goto] w.emission).code.size =
        start + jumpSize := by simp [place, jumpSize]
    rw [jump_bind shape_goto, here_bind, entry]
    refine know_step _ rfl fun store e => ?_
    refine know_step _ rfl fun _ e => ?_
    refine know_step _ rfl fun _ e => ?_
    refine know_step _ rfl fun _ e => ?_
    have inner := block_alike (writeList_refines none (start + jumpSize) body)
    refine (inner.apart closed_blockCode loop).step rfl around entry fun body e => ?_
    rw [put_bind]
    refine know_step _ rfl fun _ e => ?_
    refine know_step _ rfl fun captures e => ?_
    rw [here_bind]
    refine (patch_after_alike w [] (body ++ (ending insertReturn).toFragment) shape_goto e
      ?_ ?_ ?_).check ?_
    · change ((w.wrote [.jump .goto placeholder shape_goto] e).after body e).wrote
        (ending insertReturn) e = _
      simp [Code.toFragment]
    · simp
    · simp [jumpSize]
      omega
    rintro skip _ _ rfl
    refine know_step _ rfl fun value e => .ok ?_
    change ((w.after _ e).wrote value e).wrote store e = _
    simp [Emit.goto_eq]
  | .declare symbol value _ => by
    simpa [Statement.emit, Statement.write] using
      (value.write_refines.seq (.know (Emit.declare symbol) id)).closed loop start
  | .ifThen condition yes _ => by
    rw [Statement.emit, Statement.write]
    intro w around place
    refine condition.write_refines.step rfl fun test e => ?_
    rw [jump_bind shape_gotoDropFalse]
    refine (yes.write_refines loop _).step rfl around ?_ fun yes e => ?_
    · simp [place, jumpSize, Nat.add_assoc]
    rw [here_bind]
    refine (patch_after_alike w test.toFragment yes shape_gotoDropFalse e ?_ ?_ ?_).check_last
      ?_
    · simp [Code.toFragment]
    · simp
    · simp [Item.size, jumpSize]
      omega
    · rintro skip r same
      rw [same]
      rfl
  | .ifElse condition yes no _ => by
    rw [Statement.emit, Statement.write]
    intro w around place
    refine condition.write_refines.step rfl fun test e => ?_
    rw [jump_bind shape_gotoDropFalse]
    refine (yes.write_refines loop _).step rfl around ?_ fun yes e => ?_
    · simp [place, jumpSize, Nat.add_assoc]
    rw [jump_bind shape_goto, here_bind]
    refine (patch_after_alike w test.toFragment (yes ++ [.instruction (.goto placeholder)])
      shape_gotoDropFalse e ?_ ?_ ?_).check ?_
    · simp [Code.toFragment, Emit.goto_eq]
    · simp
    · simp [Item.size, jumpSize]
      omega
    · rintro skip _ _ rfl
      refine (no.write_refines loop _).step rfl ?_ ?_ fun no e => ?_
      · rw [Writing.base_after, around]
      · simp [Item.size, jumpSize, place]
        omega
      rw [here_bind]
      refine (patch_after_alike w (test.toFragment ++ .instruction (.gotoDrop false skip) :: yes)
        no shape_goto e ?_ ?_ ?_).check_last ?_
      · simp [Emit.goto_eq, Emit.skip_eq]
      · simp [Item.size, Nat.add_assoc]
      · simp [Item.size, jumpSize]
        omega
      · rintro leave r same
        rw [same]
        simp [Emit.goto_eq]
  | .whileLoop condition body _ => by
    rw [Statement.emit, Statement.write]
    simp only [Fragment.whileLoop, liftM_bind]
    intro w around place
    rw [localCount_bind, beginLoop_bind, here_bind]
    refine condition.write_refines.step rfl fun test e => ?_
    rw [jump_bind shape_gotoDropFalse]
    refine (body.write_refines _ _).step rfl rfl ?_ fun body e => ?_
    · simp [place, jumpSize, Nat.add_assoc, Writing.enter]
    refine (jumpTo_alike _ shape_goto ?_).check ?_
    · simp [Item.size, jumpSize, Writing.enter]
      omega
    rintro back _ _ rfl
    rw [here_bind]
    refine (patch_after_alike w.enter test.toFragment (body ++ [.instruction (.goto back)])
      shape_gotoDropFalse e ?_ ?_ ?_).check ?_
    · simp [Code.toFragment, Emit.goto_eq]
    · simp
    · simp [Item.size, jumpSize]
      omega
    · rintro skip _ _ rfl
      exact (endLoop_alike w _ e rfl).lift fun _ _ same => same
  | .doWhile body condition _ => by
    rw [Statement.emit, Statement.write]
    simp only [Fragment.doWhile, liftM_bind]
    intro w around place
    rw [localCount_bind, beginLoop_bind, here_bind]
    refine (body.write_refines _ _).step rfl rfl place fun body e => ?_
    rw [here_bind]
    refine condition.write_refines.step rfl fun test e => ?_
    refine (jumpTo_alike _ shape_gotoDropTrue ?_).check ?_
    · simp [jumpSize, Writing.enter]
      omega
    rintro back _ _ rfl
    rw [Writing.wrote_after, Writing.wrote_after]
    exact (endLoop_alike w _ e (w.enter.size_after body e)).lift fun _ _ same => same
  | .block statements _ => by
    rw [Statement.emit, Statement.write]
    exact block_alike (writeList_refines loop start statements)
  | .returns (some value) _ => by
    simpa [Statement.emit, Statement.write] using
      (value.write_refines.andPut [.ret]).closed loop start
  | .returns none _ => by
    rw [Statement.emit, Statement.write]
    exact (Refines.put [.pushTrue, .ret]).closed loop start
  | .breakLoop span => by
    rw [Statement.emit, Statement.write]
    rintro w rfl place
    exact leave_alike .breaks span w
  | .continueLoop span => by
    rw [Statement.emit, Statement.write]
    rintro w rfl place
    exact leave_alike .continues span w
  | .print value _ => by
    simpa [Statement.emit, Statement.write] using
      (value.write_refines.andPut [.print]).closed loop start
  | .expression value _ => by
    simpa [Statement.emit, Statement.write] using
      (value.write_refines.andPut [.pop]).closed loop start

theorem writeList_refines (loop : Option Nat) (start : Nat) : ∀ statements : List Statement,
    RefinesIn loop start (emitList symbols loop start [] statements) (writeList symbols statements)
  | [] => fun w _ _ => .ok w.after_nil.symm
  | s :: rest => by
    rw [emitList_cons, writeList]
    intro w around place
    refine (s.write_refines loop start).step rfl around place fun code e => ?_
    refine (writeList_refines loop _ rest (w.after code e) ?_ ?_).last ?_
    · rw [w.base_after, around]
    · rw [w.size_after, place]
    · rintro others e' r same
      rw [same, w.after_after]

end

namespace Program

def write (p : Program) : Except EmitError Machine.Image := do
  let ((), w) ← (do
    writeList p.symbols p.statements
    put [.halt]) ⟨.empty, .empty, []⟩
  let globalCount ← toWord16 .globalCount w.emission.globals.size
  return ⟨w.emission.constants, globalCount, w.code.toList⟩

/-- A program is written as it is emitted, or fails as it does. -/
theorem write_alike (p : Program) : EndsAlike Eq p.emit p.write := by
  have statements : RefinesIn none 0 (emitList p.symbols none 0 [] p.statements)
      (writeList p.symbols p.statements) := writeList_refines none 0 p.statements
  rw [emit, emitCode, bind_assoc]
  change EndsAlike Eq _ ((writeList p.symbols p.statements _ >>= fun r => put [.halt] r.2) >>= _)
  rw [bind_assoc]
  refine (statements ⟨.empty, .empty, []⟩ rfl rfl).bind ?_
  rintro ⟨f, e⟩ ⟨_, _⟩ rfl
  have bytes : ((CodeBuffer.empty.putCode f.toCode).putCode [.halt]).toList =
      Machine.encodeAll (f.toCode ++ [.halt]) := by
    rw [CodeBuffer.putCode_putCode, CodeBuffer.putCode, CodeBuffer.toList_putBytes]
    rfl
  change EndsAlike Eq (_ >>= fun n => pure (Machine.Image.mk e.constants n _)) _
  rw [← bytes]
  exact .of_eq _

/-- The image that is computed from sizes is the one that is written with placeholders and patched,
except where the code is too long for any buffer. -/
theorem write_eq_emit (p : Program) : p.write = p.emit ∨
    ∃ gap : Int, 2 ^ 63 ≤ gap.natAbs ∧ p.emit = .error (.valueOutOfRange .jumpOffset gap .i16) := by
  have both := p.write_alike
  generalize p.emit = x at *
  generalize p.write = y at *
  cases both with
  | ok same => exact .inl (congrArg Except.ok same.symm)
  | error => exact .inl rfl
  | @far gap _ large => exact .inr ⟨gap, large, rfl⟩

end Program

end Bound

end Bindery
