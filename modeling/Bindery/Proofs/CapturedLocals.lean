import Bindery.Proofs.Closing

/-!
Captured locals are closed on every way out.

A program starts with an empty stack and each of its functions with the arguments, where nothing
has been captured. From there on every slot is safe: for functions this is `SafeEntries`, for the
program `Program.safe_roots`. So wherever a path leads that has captured a local, the local is
closed when it is removed (`Machine.ClosesCaptured`). On the other hand, whatever closes a variable
removes a local that was handed over further up (`Program.Closes`), also where no path leads
(`SourceFile.captured_closed_on_exit`).
-/

namespace Bindery.Bound

open Emit (Code Fragment Item jumpSize)
open Machine (Capture Located LoopExit Reachable StackSafe Watch)
open Storage (Local)

/-! ### Functions -/

def SafeEntries (w : Watch) (e e' : Emission) : Prop :=
  ∀ f ∈ e'.functions \ e.functions, ∀ n, w.Safe n f.1 f.2 False

section Entries

variable {w : Watch} {e e₁ e' : Emission}

/-- Nothing is to be shown if no function is new. -/
theorem SafeEntries.of_subset (within : e'.functions ⊆ e.functions) : SafeEntries w e e' := by
  rintro f ⟨now, new⟩
  exact absurd (within now) new

/-- One part after the other. -/
theorem SafeEntries.trans (first : SafeEntries w e e₁) (second : SafeEntries w e₁ e') :
    SafeEntries w e e' := by
  rintro f ⟨now, new⟩
  by_cases between : f ∈ e₁.functions
  · exact first f ⟨between, new⟩
  · exact second f ⟨now, between⟩

/-- A function is added that is safe from its entry on. -/
theorem SafeEntries.wrap {start arity : Nat} {captures : List Machine.Capture}
    {body code : Fragment} (wrapped : wrapFunction start arity captures body e = .ok (code, e'))
    (entry : ∀ n, w.Safe n (start + jumpSize) arity False) : SafeEntries w e e' := by
  obtain ⟨_, _, _, _, _, _, entered, counted, added, _⟩ := wrapFunction_eq_ok wrapped
  rintro f ⟨now, new⟩ n
  rcases Emit.mem_functions_of_constant added now with before | ⟨_, _, constant, rfl⟩
  · exact absurd before new
  · cases constant
    rw [Machine.toWord16_eq_ok entered, Machine.toWord8_eq_ok counted]
    exact entry n

/-- The body of a function, and its ending. -/
theorem Watched.function {symbols : SymbolTable} {targets : LoopExit → Nat} {start : Nat}
    {f : SymbolId} {parameters : List SymbolId} {body : List Statement} {insertReturn : Bool}
    {store : Code} {e₂ : Emission} {code : Fragment} {e₃ : Emission} {value : Fragment}
    {log log' : Nat → LocalEvent → Emission → Prop} {calls : List Nat}
    (watched : Watched w targets log start (value ++ store.toFragment) calls)
    (run : WritesFunction symbols start f parameters body insertReturn e store e₁ e₂ code e₃ value
      e') (within : ∀ {o event seen}, log' o event seen → log o event seen)
    (length : (Fragment.callOffsets (start + jumpSize) code).length = calls.length) :
    Watched w targets log' (start + jumpSize) code calls ∧
      Code.LaidAt w.bytes (start + jumpSize + Fragment.size code)
        (functionEnding insertReturn e₃.frames.popBlock.1) := by
  obtain ⟨skip, _, _, constant, closure, _, _, _, _, _, rfl⟩ := wrapFunction_eq_ok run.wrapped
  have joined : Item.instruction (.goto skip) ::
      (code ++ (functionEnding insertReturn e₃.frames.popBlock.1).toFragment ++
        Code.toFragment (constant :: closure)) ++ store.toFragment =
      .instruction (.goto skip) :: (code ++ Code.toFragment
        (functionEnding insertReturn e₃.frames.popBlock.1 ++ (constant :: closure ++ store))) := by
    simp
  rw [joined] at watched
  obtain ⟨inner, ending⟩ := watched.jump.2.ending within length
  exact ⟨inner, (Code.laidAt_append.mp ending).1⟩

end Entries

variable {w : Watch} {symbols : SymbolTable}

mutual

/-- The functions of a statement are safe from their entries on. -/
theorem Statement.Writes.safeEntries {s : Statement} {loop start e e' code targets} :
    s.Writes symbols loop start e code e' → s.Tidy True →
      e.Ready s.introduces → (∀ base, loop = some base → base ≤ e.locals) →
      Watched w targets (s.Logs symbols loop start e code e') start code s.callArguments →
        SafeEntries w e e'
  | .function declared put body wrapped, .function inner inserted, ready, _, watched => by
    have run : WritesFunction symbols _ _ _ _ _ _ _ _ _ _ _ _ _ := ⟨declared, put, body, wrapped⟩
    rw [Statement.introduces] at ready
    obtain ⟨entered, arity⟩ := ready_enterFunction ready declared put
    obtain ⟨within, ending⟩ :=
      watched.function run (.body run) (body.length_calls inner entered nofun)
    have inside := body.safeEntries inner entered nofun within
    have added : SafeEntries w _ _ := .wrap wrapped fun n => by
      rw [← arity]
      refine (body.safe inner entered within (.none ..) ?_).anti False.elim
      refine (Classical.em (EndsList _)).imp_right fun runs => ?_
      obtain rfl := inserted.mpr runs
      exact safe_functionEnding (body.dense entered) ending fun _ _ removed =>
        watched.closing (.bodyEnd run removed)
    exact (SafeEntries.of_subset (functions_enterFunction declared put).subset).trans
      (inside.trans added)
  | .declare value declared, _, _, _, _ =>
    .of_subset ((Emit.declare_functions declared).trans_subset value.functions)
  | .ifThen condition yes past, .ifThen inner _, ready, below, watched => by
    have kept := Emission.locals_of_contents condition.contents
    obtain ⟨_, _, way⟩ :=
      watched.test condition ready.dense fun logged => .ifThen condition logged past
    refine SafeEntries.trans (.of_subset condition.functions) ?_
    exact yes.safeEntries inner (condition.ready ready) (kept ▸ below) way
  | .ifElse condition yes past no out, .ifElse first nothing second _, ready, below, watched => by
    rw [Statement.introduces] at ready
    have kept := Emission.locals_of_contents condition.contents
    have kept' := yes.locals_eq (nothing trivial)
    have between := condition.ready ready
    have ready' := between.sublist (List.sublist_append_left _ _)
    obtain ⟨_, _, ways⟩ := watched.test condition ready.dense id
    obtain ⟨way, _, way'⟩ := ways.ways (yes.length_calls first ready' (kept ▸ below))
      (fun logged => .ifYes condition logged past no out)
      (fun logged => .ifNo condition yes past logged out)
    have one := yes.safeEntries first ready' (kept ▸ below) way
    have two := no.safeEntries second (yes.ready between) (kept' ▸ kept ▸ below) way'
    exact (SafeEntries.of_subset condition.functions).trans (one.trans two)
  | .whileLoop condition body run, .whileLoop inner _, ready, _, watched => by
    have kept := Emission.locals_of_contents condition.contents
    have ready' := condition.ready ready
    obtain ⟨_, _, _, round⟩ := watched.whileLoop condition ready.dense run
      (fun logged => .whileLoop condition logged run)
      (body.length_calls inner ready' (below_body kept))
    refine SafeEntries.trans (.of_subset condition.functions) ?_
    exact body.safeEntries inner ready' (below_body kept) round
  | .doWhile body condition run, .doWhile inner _, ready, _, watched => by
    obtain ⟨_, _, _, round⟩ := watched.doWhile condition (body.dense ready) run
      (fun logged => .doWhile logged condition run)
      (body.length_calls inner ready (below_body rfl))
    refine SafeEntries.trans (body.safeEntries inner ready (below_body rfl) round) ?_
    exact .of_subset condition.functions
  | .block statements, .block inner, ready, below, watched => by
    rw [← Emission.locals_pushBlock] at below
    obtain ⟨within, _⟩ := watched.ending .block
      (statements.length_calls inner ready.pushBlock below)
    exact statements.safeEntries inner ready.pushBlock below within
  | .returnsUnit, _, _, _, _ | .breakLoop, _, _, _, _
  | .continueLoop, _, _, _, _ => .of_subset subset_rfl
  | .returns value, _, _, _, _ | .print value, _, _, _, _
  | .expression value, _, _, _, _ => .of_subset value.functions

theorem WritesList.safeEntries {statements loop start e e' code targets} :
    WritesList symbols loop start statements e code e' → TidyList True statements →
    e.Ready (introducesList statements) → (∀ base, loop = some base → base ≤ e.locals) →
    Watched w targets (LogsList symbols loop start statements e code e') start code
      (callArgumentsOfList statements) → SafeEntries w e e'
  | .nil, _, _, _, _ => .of_subset subset_rfl
  | .cons first others, .cons one _ rest, ready, below, watched => by
    rw [introducesList] at ready
    have here := ready.sublist (List.sublist_append_left _ _)
    obtain ⟨front, back⟩ := watched.append (first.length_calls one here below)
      (fun logged => .first logged others) (.later first)
    refine SafeEntries.trans (first.safeEntries one here below front) ?_
    exact others.safeEntries rest (first.ready ready)
      (fun base same => (below base same).trans first.locals_le) back

end

/-! ### Programs -/

def Program.Logs (p : Program) (o : Nat) (event : LocalEvent) (seen : Emission) : Prop :=
  ∃ f e, p.emitCode = .ok (Fragment.toCode f ++ [.halt], e) ∧
    LogsList p.symbols none 0 p.statements .empty f e o event seen

/-- The instruction at `o` removes the local of a symbol, and an instruction further up in the
code has handed that local over to a function. -/
structure Program.Closes (p : Program) (code : List Located) (o : Nat) (s : SymbolId)
    (v : Local) : Prop where
  removed : ∃ seen, p.Logs o (.removes v) seen ∧ seen.frames.current.Has s v
  handed : ∃ l ∈ code, l.offset < o ∧ ∃ captures seen, l.instruction = .closure captures ∧
    (⟨true, v.index⟩ : Capture) ∈ captures ∧ p.Logs l.offset (.handsOver captures) seen ∧
      seen.frames.current.Has s v

/-- A slot is watched in the code of a program, where only captured locals may be closed. -/
def Program.watch (p : Program) (bytes : List UInt8) (code : List Located) (arguments : Nat → Nat)
    (slot : Nat) : Watch where
  bytes := bytes
  arguments := arguments
  slot := slot
  closing o h := ∃ s v, p.Closes code o s v ∧ h = v.index.toNat + 1

section Programs

variable {p : Program} {f : Fragment} {e : Emission} {image : Machine.Image} {code : Code}
    {arguments height : Nat → Nat}

/-- What stands in the code of the statements stands in the code of the program. -/
theorem WritesList.mem_locate {symbols : SymbolTable} {statements : List Statement}
    (run : WritesList symbols none 0 statements .empty f e) {o : Nat} {i : Machine.Instruction}
    (other : i ≠ .halt) :
    ⟨o, i⟩ ∈ Machine.locate 0 (Fragment.toCode f ++ [.halt]) ↔
      (o, .instruction i) ∈ Fragment.locate 0 f := by
  have same : Code.toFragment (Fragment.toCode f) = f :=
    Fragment.toFragment_toCode fun x => run.exit_not_mem
  rw [← Fragment.mem_locate_toFragment, Code.toFragment_append, same, Fragment.locate_append]
  simp [other]

/-- A marked local that a program removes was handed over before. -/
theorem Program.closes_of_logs (run : p.emitCode = .ok (code, e))
    (text : code = Fragment.toCode f ++ [.halt]) {o : Nat} {v : Local} {seen : Emission}
    (logged : LogsList p.symbols none 0 p.statements .empty f e o (.removes v) seen)
    (marked : v.captured = true) : ∃ s, p.Closes (Machine.locate 0 code) o s v := by
  subst text
  obtain ⟨s, has, before | ⟨q, above, captures, taken, hands, mem, has'⟩⟩ := logged.handed marked
  · obtain ⟨b, inside, _⟩ := before
    cases inside
  · have placed := (logged.writes.mem_locate (i := .closure captures) nofun).mpr hands.mem_locate
    exact ⟨s, ⟨seen, ⟨f, e, run, logged⟩, has⟩, _, placed, above, captures, taken, rfl, mem,
      ⟨f, e, run, hands⟩, has'⟩

/-- The code of a program is watched where it stands. -/
theorem Program.watched (run : p.emitCode = .ok (code, e))
    (text : code = Fragment.toCode f ++ [.halt])
    (statements : WritesList p.symbols none 0 p.statements .empty f e)
    (bytes : image.code = Machine.encodeAll code)
    (counted : (Machine.callOffsets (Machine.locate 0 code)).map arguments =
      callArgumentsOfList p.statements) (slot : Nat) (targets : LoopExit → Nat) :
    Watched (p.watch image.code (Machine.locate 0 code) arguments slot) targets
      (LogsList p.symbols none 0 p.statements .empty f e) 0 f
      (callArgumentsOfList p.statements) where
  laid := by
    subst text
    exact (statements.laidAt run bytes targets).1
  counted := by
    have same : Code.toFragment (Fragment.toCode f) = f :=
      Fragment.toFragment_toCode fun x => statements.exit_not_mem
    have none : Fragment.callOffsets (0 + Fragment.size f) (Code.toFragment [.halt]) = [] := rfl
    rw [text, ← Fragment.callOffsets_toFragment, Code.toFragment_append, same,
      Fragment.callOffsets_append, none, List.append_nil] at counted
    exact counted
  closing o v seen logged marked := by
    obtain ⟨s, closes⟩ := Program.closes_of_logs run text logged marked
    exact ⟨s, v, closes, rfl⟩

/-- The slots of a program are safe from its start on, and from the entry of each function. -/
theorem Program.safe_roots (run : p.emitCode = .ok (code, e))
    (text : code = Fragment.toCode f ++ [.halt])
    (statements : WritesList p.symbols none 0 p.statements .empty f e)
    (bytes : image.code = Machine.encodeAll code)
    (counted : (Machine.callOffsets (Machine.locate 0 code)).map arguments =
      callArgumentsOfList p.statements) (tidy : TidyList True p.statements)
    (once : (introducesList p.statements).Nodup) (slot : Nat) :
    ∀ root ∈ (0, 0) :: e.constants.functions, ∀ n,
      (p.watch image.code (Machine.locate 0 code) arguments slot).Safe n root.1 root.2 False := by
  have watched := Program.watched run text statements bytes counted slot fun _ => 0
  intro root mem n
  rcases List.mem_cons.mp mem with rfl | function
  · subst text
    have ends := (statements.laidAt run bytes fun _ => 0).2
    rw [← Nat.zero_add (Fragment.size f)] at ends
    exact (statements.safe tidy (.empty once) watched (.none ..) (.inr (.halt ends))).anti
      False.elim
  · exact statements.safeEntries tidy (.empty once) nofun watched root
      ⟨function, List.not_mem_nil⟩ n

/-- In the code of a tidy program captured locals are closed, and no others. -/
theorem Program.closes_of_emitCode (run : p.emitCode = .ok (code, e))
    (bytes : image.code = Machine.encodeAll code) (tidy : TidyList True p.statements)
    (once : (introducesList p.statements).Nodup)
    (counted : (Machine.callOffsets (Machine.locate 0 code)).map arguments =
      callArgumentsOfList p.statements)
    (safe : StackSafe (Machine.locate 0 code) ((0, 0) :: e.constants.functions) arguments
      height) :
    Machine.ClosesCaptured (Machine.locate 0 code) ((0, 0) :: e.constants.functions) height ∧
      ∀ l ∈ Machine.locate 0 code, l.instruction.opcode = .closeFree →
        ∃ s v, p.Closes (Machine.locate 0 code) l.offset s v ∧
          (Reachable (Machine.locate 0 code) ((0, 0) :: e.constants.functions) l →
            height l.offset = v.index.toNat + 1) := by
  obtain ⟨f, text, statements⟩ := Program.writes_of_emitCode run
  have laid : ∀ l ∈ Machine.locate 0 code,
      Machine.fetch image.code l.offset = some l.instruction := by
    intro l mem
    rw [bytes]
    exact Machine.fetch_encodeAll (Program.encodable_of_emitCode run) mem
  have entries := Program.safe_roots run text statements bytes counted tidy once
  constructor
  · intro l l' slot reached captures keeps removes
    obtain ⟨reached', along⟩ := Watch.Safe.along (w := p.watch image.code _ arguments slot) safe
      laid (entries slot) reached captures keeps
    exact (along 1 _ (laid l' reached'.mem)).1 removes trivial
  · rintro ⟨o, i⟩ mem closes
    by_cases reached : Reachable (Machine.locate 0 code) ((0, 0) :: e.constants.functions) ⟨o, i⟩
    · obtain ⟨s, v, closes, top⟩ := Watch.Safe.closing_of_reach
        (w := p.watch image.code _ arguments 0) safe laid (entries 0) reached closes
      exact ⟨s, v, closes, fun _ => top⟩
    -- No path leads here, but the instruction was written for a marked local.
    · obtain rfl := Machine.Instruction.eq_closeFree closes
      rw [text] at mem
      have inside := (statements.mem_locate (i := .closeFree) nofun).mp mem
      obtain ⟨v, seen, marked, logged⟩ := statements.removal inside
      obtain ⟨s, closes⟩ := Program.closes_of_logs run text logged marked
      exact ⟨s, v, closes, fun now => absurd now reached⟩

end Programs

end Bindery.Bound

namespace Bindery

/-- In the code of a compiled file whose declarations stand in statement lists, captured locals
are closed on every way out: once a function has captured a local of the function or program that
is running, the first instruction that removes the local closes it, whether at the end of a block
or on the way out of a loop. And what is closed is always a local that an instruction further up
in the code has handed over to a function. -/
theorem SourceFile.captured_closed_on_exit {file : SourceFile} {image : Machine.Image}
    (listed : file.DeclaresInLists) (compiled : file.compile = .ok image) :
    ∃ code arguments height, Machine.disassemble image.code = .ok code ∧
      (Machine.callOffsets code).map arguments =
          Bound.callArgumentsOfList file.bind.1.statements ∧
      Machine.StackSafe code ((0, 0) :: image.constants.functions) arguments height ∧
      Machine.ClosesCaptured code ((0, 0) :: image.constants.functions) height ∧
      ∀ l ∈ code, l.instruction.opcode = .closeFree →
        ∃ s v, file.bind.1.Closes code l.offset s v ∧
          (Machine.Reachable code ((0, 0) :: image.constants.functions) l →
            height l.offset = v.index.toNat + 1) := by
  obtain ⟨clean, written⟩ := emit_of_compile compiled
  obtain ⟨b, run, _, found, paths⟩ := binds_of_clean clean
  obtain ⟨code, e, emitted, constants, bytes⟩ := Bound.Program.emitCode_of_emit written
  have tidy : Bound.TidyList True file.bind.1.statements := run.tidy (fun _ => listed) found paths
  have once : (Bound.introducesList file.bind.1.statements).Nodup := run.introduces.nodup
  obtain ⟨arguments, height, counted, safe⟩ :=
    Bound.Program.stackSafe_of_emitCode emitted tidy once
  obtain ⟨closes, closed⟩ :=
    Bound.Program.closes_of_emitCode emitted bytes tidy once counted safe
  rw [constants]
  refine ⟨_, arguments, height, ?_, counted, safe, closes, closed⟩
  rw [bytes]
  exact Bound.Program.disassemble_of_emitCode emitted

open Unplaced in
/-- A loop whose round is left before and after a function captures its local and one around the
loop: `{ var n = 0 while (n < 3) { val m = n n = n + 1 if (m < 1) continue
{ fun get(): Int { return m + n } print get() } if (m < 2) continue break } }`. The end of the
round is not reached, and the local is closed there too. -/
def capturingFile : SourceFile :=
  source "capturing" [block [var "n" (int 0),
    whileLoop (binary .less (use "n") (int 3)) [
      val "m" (use "n"),
      assign "n" (binary .plus (use "n") (int 1)),
      ifThen (binary .less (use "m") (int 1)) (.continueLoop default),
      block [function "get" [] "Int" [give (binary .plus (use "m") (use "n"))],
        print (call "get" [])],
      ifThen (binary .less (use "m") (int 2)) (.continueLoop default),
      .breakLoop default]]]

/-- Four instructions of the file close captured locals. -/
theorem capturingFile_closes :
    capturingFile.DeclaresInLists ∧ ∃ image code arguments height,
      capturingFile.compile = .ok image ∧ Machine.disassemble image.code = .ok code ∧
      (code.filter fun l => l.instruction.opcode == .closeFree).map (·.offset) = [80, 84, 88, 92] ∧
      Machine.StackSafe code ((0, 0) :: image.constants.functions) arguments height ∧
      Machine.ClosesCaptured code ((0, 0) :: image.constants.functions) height ∧
      ∀ l ∈ code, l.instruction.opcode = .closeFree →
        ∃ s v, capturingFile.bind.1.Closes code l.offset s v ∧
          (Machine.Reachable code ((0, 0) :: image.constants.functions) l →
            height l.offset = v.index.toNat + 1) := by
  have listed : capturingFile.DeclaresInLists := by decide +kernel
  have closing : (capturingFile.compile.toOption.bind fun image =>
      (Machine.disassemble image.code).toOption.map fun code =>
        (code.filter fun l => l.instruction.opcode == .closeFree).map (·.offset)) =
      some [80, 84, 88, 92] := by
    decide +kernel
  obtain ⟨image, compiled, closing⟩ := ok_of_toOption_bind closing
  obtain ⟨code, arguments, height, read, _, safe, closes, closed⟩ :=
    SourceFile.captured_closed_on_exit listed compiled
  rw [read] at closing
  exact ⟨listed, image, code, arguments, height, compiled, read, Option.some.inj closing, safe,
    closes, closed⟩

end Bindery
