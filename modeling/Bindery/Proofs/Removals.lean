import Bindery.Proofs.Captures

/-!
Which instruction removes which local.

Instructions that remove a local or hand some over to a function are written knowing the frame
of the current function. `Statement.Logs` keeps this knowledge: it says at which offset such an
instruction stands and what the emission was when it was written. A local that is marked was
handed over to a function by an instruction that was written while it was open
(`Statement.Writes.handed`). So whenever a marked local is removed, an instruction further up
has handed it over (`Statement.Logs.handed`), and every instruction that closes a captured
variable is such a removal (`Statement.Writes.removal`).
-/

namespace Bindery.Bound

open Emit (Code Fragment Item jumpSize)
open Machine (Capture Instruction)
open Storage

/-! ### Events -/

/-- What an instruction does to locals: it removes one, or hands some over to a function. -/
inductive LocalEvent where
  | removes (l : Local)
  | handsOver (captures : List Capture)

def LocalEvent.instruction : LocalEvent → Instruction
  | .removes l => l.discard
  | .handsOver captures => .closure captures

/-- Where locals are removed one after the other from `start` on, the instruction at `o`
removes `l`. -/
def RemovedAt (start : Nat) (locals : List Local) (o : Nat) (l : Local) : Prop :=
  ∃ front back, locals = front ++ l :: back ∧ o = start + Code.size (front.map Local.discard)

variable {start o : Nat} {locals : List Local} {l : Local} {i : Instruction} {symbols : SymbolTable}
    {f s x : SymbolId} {parameters : List SymbolId} {body : List Statement} {insertReturn : Bool}
    {e e₁ e₂ e₃ e' : Emission} {store condition : Code} {code value : Fragment}

theorem RemovedAt.mem (removed : RemovedAt start locals o l) : l ∈ locals := by
  obtain ⟨front, back, rfl, _⟩ := removed
  exact List.mem_append_right _ List.mem_cons_self

theorem RemovedAt.mem_locate (removed : RemovedAt start locals o l) :
    (o, .instruction l.discard) ∈
      Fragment.locate start (Code.toFragment (locals.map Local.discard)) := by
  obtain ⟨front, back, rfl, rfl⟩ := removed
  simp

/-- An instruction that removes locals removes one of them. -/
theorem exists_removedAt (mem : (o, .instruction i) ∈
      Fragment.locate start (Code.toFragment (locals.map Local.discard))) :
    ∃ l, i = l.discard ∧ RemovedAt start locals o l := by
  induction locals generalizing start with
  | nil => cases mem
  | cons l rest ih =>
    rcases List.mem_cons.mp mem with same | later
    · cases same
      exact ⟨l, rfl, [], rest, rfl, rfl⟩
    · obtain ⟨l', same, front, back, rfl, rfl⟩ := ih later
      refine ⟨l', same, l :: front, back, rfl, ?_⟩
      rw [List.map_cons, Code.size_cons, Nat.add_assoc]
      rfl

/-- The run that writes a function, with the emissions behind its declaration, its parameters and
its body. -/
structure WritesFunction (symbols : SymbolTable) (start : Nat) (f : SymbolId)
    (parameters : List SymbolId) (body : List Statement) (insertReturn : Bool) (e : Emission)
    (store : Code) (e₁ e₂ : Emission) (code : Fragment) (e₃ : Emission) (value : Fragment)
    (e' : Emission) : Prop where
  declared : Emit.declare f e = .ok (store, e₁)
  put : parameters.forM Emit.putLocal { e₁ with frames := e₁.frames.pushFrame.pushBlock } =
    .ok ((), e₂)
  inner : WritesList symbols none (start + jumpSize) body
    { e₂ with frames := e₂.frames.pushBlock } code e₃
  wrapped : wrapFunction start parameters.length e₃.frames.popBlock.2.popBlock.2.popFrame.1
    (code ++ (functionEnding insertReturn e₃.frames.popBlock.1).toFragment)
    { e₃ with frames := e₃.frames.popBlock.2.popBlock.2.popFrame.2 } = .ok (value, e')

mutual

/-- `s.Logs symbols loop start e code e' o event seen`: at offset `start`, `s` is written as
`code`, which takes `e` to `e'`; the instruction at offset `o` stands for the event, and `seen`
was the emission when it was written. -/
inductive Statement.Logs (symbols : SymbolTable) : Option Nat → Nat → Statement → Emission →
    Fragment → Emission → Nat → LocalEvent → Emission → Prop where
  | body {loop start f parameters body insertReturn bodySpan span e store e₁ e₂ code e₃ value e'
        o event seen} :
      WritesFunction symbols start f parameters body insertReturn e store e₁ e₂ code e₃ value e' →
      LogsList symbols none (start + jumpSize) body { e₂ with frames := e₂.frames.pushBlock } code
        e₃ o event seen →
      Statement.Logs symbols loop start (.function f parameters body insertReturn bodySpan span)
        e (value ++ store.toFragment) e' o event seen
  | bodyEnd {loop start f parameters body insertReturn bodySpan span e store e₁ e₂ code e₃ value
        e' o l} :
      WritesFunction symbols start f parameters body insertReturn e store e₁ e₂ code e₃ value e' →
      RemovedAt (start + jumpSize + Fragment.size code) e₃.frames.popBlock.1 o l →
      Statement.Logs symbols loop start (.function f parameters body insertReturn bodySpan span)
        e (value ++ store.toFragment) e' o (.removes l) e₃
  | closure {loop start f parameters body insertReturn bodySpan span e store e₁ e₂ code e₃ value
        e' front captures} :
      WritesFunction symbols start f parameters body insertReturn e store e₁ e₂ code e₃ value e' →
      value = front ++ [.instruction (.closure captures)] →
      captures = e₃.frames.popBlock.2.popBlock.2.popFrame.1 →
      Statement.Logs symbols loop start (.function f parameters body insertReturn bodySpan span)
        e (value ++ store.toFragment) e' (start + Fragment.size front) (.handsOver captures)
        { e₃ with frames := e₃.frames.popBlock.2.popBlock.2.popFrame.2 }
  | ifThen {loop start condition yes span e c e₁ y e' skip o event seen} :
      condition.Writes symbols none e c e₁ →
      yes.Logs symbols loop (start + Code.size c.flatten + jumpSize) e₁ y e'
        o event seen →
      Machine.toDistance (Fragment.size y) = .ok skip →
      Statement.Logs symbols loop start (.ifThen condition yes span) e
        (Code.toFragment c.flatten ++ .instruction (.gotoDrop false skip) :: y) e' o event seen
  | ifYes {loop start condition yes no span e c e₁ y e₂ skip n e' leave o event seen} :
      condition.Writes symbols none e c e₁ →
      yes.Logs symbols loop (start + Code.size c.flatten + jumpSize) e₁ y e₂
        o event seen →
      Machine.toDistance (Fragment.size y + jumpSize : Nat) = .ok skip →
      no.Writes symbols loop
        (start + Code.size c.flatten + jumpSize + (Fragment.size y + jumpSize)) e₂ n e' →
      Machine.toDistance (Fragment.size n) = .ok leave →
      Statement.Logs symbols loop start (.ifElse condition yes no span) e
        (Code.toFragment c.flatten ++ .instruction (.gotoDrop false skip) ::
          (y ++ .instruction (.goto leave) :: n)) e' o event seen
  | ifNo {loop start condition yes no span e c e₁ y e₂ skip n e' leave o event seen} :
      condition.Writes symbols none e c e₁ →
      yes.Writes symbols loop (start + Code.size c.flatten + jumpSize) e₁ y e₂ →
      Machine.toDistance (Fragment.size y + jumpSize : Nat) = .ok skip →
      no.Logs symbols loop
        (start + Code.size c.flatten + jumpSize + (Fragment.size y + jumpSize)) e₂ n e'
        o event seen →
      Machine.toDistance (Fragment.size n) = .ok leave →
      Statement.Logs symbols loop start (.ifElse condition yes no span) e
        (Code.toFragment c.flatten ++ .instruction (.gotoDrop false skip) ::
          (y ++ .instruction (.goto leave) :: n)) e' o event seen
  | whileLoop {loop start condition body span e c e₁ b e' code o event seen} :
      condition.Writes symbols none e c e₁ →
      body.Logs symbols (some e.frames.current.size)
        (start + Code.size c.flatten + jumpSize) e₁ b e' o event seen →
      Fragment.whileLoop c.flatten b = .ok code →
      Statement.Logs symbols loop start (.whileLoop condition body span) e code e' o event seen
  | doWhile {loop start body condition span e b e₁ c e' code o event seen} :
      body.Logs symbols (some e.frames.current.size) start e b e₁ o event seen →
      condition.Writes symbols none e₁ c e' →
      Fragment.doWhile b c.flatten = .ok code →
      Statement.Logs symbols loop start (.doWhile body condition span) e code e' o event seen
  | block {loop start statements span e code e' o event seen} :
      LogsList symbols loop start statements { e with frames := e.frames.pushBlock } code e'
        o event seen →
      Statement.Logs symbols loop start (.block statements span) e
        (code ++ Code.toFragment (e'.frames.popBlock.1.map Local.discard))
        { e' with frames := e'.frames.popBlock.2 } o event seen
  | blockEnd {loop start statements span e code e' o l} :
      WritesList symbols loop start statements { e with frames := e.frames.pushBlock } code e' →
      RemovedAt (start + Fragment.size code) e'.frames.popBlock.1 o l →
      Statement.Logs symbols loop start (.block statements span) e
        (code ++ Code.toFragment (e'.frames.popBlock.1.map Local.discard))
        { e' with frames := e'.frames.popBlock.2 } o (.removes l) e'
  | breakLoop {base start span e o l} :
      RemovedAt start (e.frames.current.localsFrom base) o l →
      Statement.Logs symbols (some base) start (.breakLoop span) e
        (Code.toFragment ((e.frames.current.localsFrom base).map Local.discard) ++
          [.exit .breaks]) e o (.removes l) e
  | continueLoop {base start span e o l} :
      RemovedAt start (e.frames.current.localsFrom base) o l →
      Statement.Logs symbols (some base) start (.continueLoop span) e
        (Code.toFragment ((e.frames.current.localsFrom base).map Local.discard) ++
          [.exit .continues]) e o (.removes l) e

/-- The same for statements that are written one after the other. -/
inductive LogsList (symbols : SymbolTable) : Option Nat → Nat → List Statement → Emission →
    Fragment → Emission → Nat → LocalEvent → Emission → Prop where
  | first {loop start s rest e c e₁ cs e' o event seen} :
      s.Logs symbols loop start e c e₁ o event seen →
      WritesList symbols loop (start + Fragment.size c) rest e₁ cs e' →
      LogsList symbols loop start (s :: rest) e (c ++ cs) e' o event seen
  | later {loop start s rest e c e₁ cs e' o event seen} :
      s.Writes symbols loop start e c e₁ →
      LogsList symbols loop (start + Fragment.size c) rest e₁ cs e' o event seen →
      LogsList symbols loop start (s :: rest) e (c ++ cs) e' o event seen

end

mutual

/-- What is logged belongs to a run. -/
theorem Statement.Logs.writes {s : Statement} {loop start e e' code o event seen} :
    s.Logs symbols loop start e code e' o event seen → s.Writes symbols loop start e code e'
  | .body run _ | .bodyEnd run _ | .closure run _ _ =>
    .function run.declared run.put run.inner run.wrapped
  | .ifThen condition yes past => .ifThen condition yes.writes past
  | .ifYes condition yes past no out => .ifElse condition yes.writes past no out
  | .ifNo condition yes past no out => .ifElse condition yes past no.writes out
  | .whileLoop condition body run => .whileLoop condition body.writes run
  | .doWhile body condition run => .doWhile body.writes condition run
  | .block statements => .block statements.writes
  | .blockEnd statements _ => .block statements
  | .breakLoop _ => .breakLoop
  | .continueLoop _ => .continueLoop

theorem LogsList.writes {statements loop start e e' code o event seen} :
    LogsList symbols loop start statements e code e' o event seen →
      WritesList symbols loop start statements e code e'
  | .first here others => .cons here.writes others
  | .later first others => .cons first others.writes

end

/-! ### Where the instructions stand -/

/-- The code of a function: a jump over its body and the ending of the body, and then the function
as a value. -/
theorem WritesFunction.code_eq
    (run : WritesFunction symbols start f parameters body insertReturn e store e₁ e₂ code e₃ value
      e') :
    ∃ skip ending constant closure,
      value = .instruction (.goto skip) :: (code ++
        (Code.toFragment (e₃.frames.popBlock.1.map Local.discard) ++
          (Code.toFragment ending ++ Code.toFragment (constant :: closure)))) ∧
      Code.Evaluates [constant] ∧ (ending = [.pushTrue, .ret] ∨ ending = []) ∧
      Emit.closure e₃.frames.popBlock.2.popBlock.2.popFrame.1 = .ok closure := by
  obtain ⟨skip, _, _, constant, closure, _, _, _, added, closed, rfl⟩ :=
    wrapFunction_eq_ok run.wrapped
  have evaluates : Code.Evaluates [constant] := by simp [Emit.evaluates_constant added]
  cases insertReturn with
  | true =>
    refine ⟨skip, [.pushTrue, .ret], constant, closure, ?_, evaluates, .inl rfl, closed⟩
    simp [functionEnding]
  | false =>
    refine ⟨skip, [], constant, closure, ?_, evaluates, .inr rfl, closed⟩
    simp [functionEnding]

/-- What stands in the body of a loop stands there when the loop is closed. -/
theorem mem_locate_whileLoop {body : Fragment} (run : Fragment.whileLoop condition body = .ok code)
    (mem : (o, .instruction i) ∈
      Fragment.locate (start + condition.size + jumpSize) body) :
    (o, .instruction i) ∈ Fragment.locate start code := by
  obtain ⟨skip, back, _, _, closed⟩ := Emit.whileLoop_eq_ok run
  refine (Fragment.closeLoop_settled closed start).keeps ?_
  simp [Emit.whileBody, Item.size, mem]

theorem mem_locate_doWhile {body : Fragment} (run : Fragment.doWhile body condition = .ok code)
    (mem : (o, .instruction i) ∈ Fragment.locate start body) :
    (o, .instruction i) ∈ Fragment.locate start code := by
  obtain ⟨back, _, closed⟩ := Emit.doWhile_eq_ok run
  refine (Fragment.closeLoop_settled closed start).keeps ?_
  simp [Emit.doWhileBody, mem]

mutual

/-- The instruction of an event stands at its offset. -/
theorem Statement.Logs.mem_locate {s : Statement} {loop start e e' code o event seen} :
    s.Logs symbols loop start e code e' o event seen →
      (o, .instruction event.instruction) ∈ Fragment.locate start code
  | .body run inner => by
    obtain ⟨skip, ending, constant, closure, rfl, _⟩ := run.code_eq
    simp [Item.size, inner.mem_locate]
  | .bodyEnd run removed => by
    obtain ⟨skip, ending, constant, closure, rfl, _⟩ := run.code_eq
    simp [Item.size, removed.mem_locate, LocalEvent.instruction]
  | .closure _ same _ => by
    simp [same, LocalEvent.instruction]
  | .ifThen _ yes _ | .ifYes _ yes .. => by simp [Item.size, yes.mem_locate]
  | .ifNo _ _ _ no _ => by
    have inside := no.mem_locate
    rw [← Nat.add_assoc] at inside
    simp [Item.size, inside]
  | .whileLoop _ body run => mem_locate_whileLoop run body.mem_locate
  | .doWhile body _ run => mem_locate_doWhile run body.mem_locate
  | .block statements => by simp [statements.mem_locate]
  | .blockEnd _ removed | .breakLoop removed | .continueLoop removed => by
    simp [removed.mem_locate, LocalEvent.instruction]

theorem LogsList.mem_locate {statements loop start e e' code o event seen} :
    LogsList symbols loop start statements e code e' o event seen →
      (o, .instruction event.instruction) ∈ Fragment.locate start code
  | .first here _ => by simp [here.mem_locate]
  | .later _ others => by simp [others.mem_locate]

end

/-- What is logged stands inside the statement's code. -/
theorem Statement.Logs.bounds {symbols : SymbolTable} {s : Statement} {loop : Option Nat}
    {start : Nat} {e e' : Emission} {code : Fragment} {o : Nat} {event : LocalEvent}
    {seen : Emission} (logged : s.Logs symbols loop start e code e' o event seen) :
    start ≤ o ∧ o < start + Fragment.size code := by
  have bounds := Fragment.locate_bounds logged.mem_locate
  have positive := Item.size_pos (.instruction event.instruction)
  omega

theorem LogsList.bounds {symbols : SymbolTable} {statements : List Statement} {loop : Option Nat}
    {start : Nat} {e e' : Emission} {code : Fragment} {o : Nat} {event : LocalEvent}
    {seen : Emission} (logged : LogsList symbols loop start statements e code e' o event seen) :
    start ≤ o ∧ o < start + Fragment.size code := by
  have bounds := Fragment.locate_bounds logged.mem_locate
  have positive := Item.size_pos (.instruction event.instruction)
  omega

/-! ### Marks and what they are due to -/

def HandsOver (log : Nat → LocalEvent → Emission → Prop) (o : Nat) (s : SymbolId) (l : Local) :
    Prop :=
  ∃ captures seen, log o (.handsOver captures) seen ∧ (⟨true, l.index⟩ : Capture) ∈ captures ∧
    seen.frames.current.Has s l

theorem HandsOver.mono {log log' : Nat → LocalEvent → Emission → Prop} (hands : HandsOver log o s l)
    (within : ∀ {o event seen}, log o event seen → log' o event seen) : HandsOver log' o s l := by
  obtain ⟨captures, seen, logged, mem, has⟩ := hands
  exact ⟨captures, seen, within logged, mem, has⟩

theorem HandsOver.logged {log : Nat → LocalEvent → Emission → Prop} {o : Nat} {s : SymbolId}
    {l : Local} (hands : HandsOver log o s l) : ∃ event seen, log o event seen := by
  obtain ⟨captures, seen, logged, _⟩ := hands
  exact ⟨_, seen, logged⟩

theorem closure_eq_of_mem {captures : List Capture} {c : Capture} {code : Code}
    (run : Emit.closure captures = .ok code) (mem : c ∈ captures) : code = [.closure captures] := by
  rcases Emit.closure_eq_ok run with ⟨_, rfl⟩ | ⟨_, same, _⟩
  · cases captures with
    | nil => cases mem
    | cons =>
      unfold Emit.closure Machine.toWord16 at run
      split at run
      · contradiction
      · split at run <;> cases run
  · exact same

/-- A function declaration hands over what its function takes from the function around it. -/
theorem WritesFunction.handed {loop : Option Nat} {bodySpan span : Span}
    (run : WritesFunction symbols start f parameters body insertReturn e store e₁ e₂ code e₃ value
      e') (has : e'.frames.current.Has x l) (marked : l.captured = true) :
    e.frames.current.Has x l ∨ ∃ o, HandsOver
      (Statement.Logs symbols loop start (.function f parameters body insertReturn bodySpan span)
        e (value ++ store.toFragment) e') o x l := by
  rw [frames_wrapFunction run.wrapped] at has
  obtain ⟨lends, captures⟩ := lends_function run.declared run.put run.inner
  rcases lends.taken has marked with before | taken
  · exact .inl (Emit.has_of_declare run.declared before marked)
  · obtain ⟨skip, ending, constant, closure, same, _, _, closed⟩ := run.code_eq
    rw [← captures] at taken
    obtain rfl := closure_eq_of_mem closed taken
    have split : value = .instruction (.goto skip) :: (code ++
        (Code.toFragment (e₃.frames.popBlock.1.map Local.discard) ++
          (Code.toFragment ending ++ [.instruction constant]))) ++
        [.instruction (.closure e₃.frames.popBlock.2.popBlock.2.popFrame.1)] := by
      rw [same]
      simp
    exact .inr ⟨_, _, _, .closure run split rfl, taken, has⟩

mutual

/-- A local that is marked behind a statement was marked before it, or the statement hands it
over. -/
theorem Statement.Writes.handed {s : Statement} {loop start e e' code} :
    s.Writes symbols loop start e code e' → e'.frames.current.Has x l → l.captured = true →
      e.frames.current.Has x l ∨
        ∃ o, HandsOver (s.Logs symbols loop start e code e') o x l
  | .function declared put body wrapped, has, marked =>
    WritesFunction.handed ⟨declared, put, body, wrapped⟩ has marked
  | .declare value declared, has, marked =>
    .inl ((Emit.has_of_declare declared has marked).of_blocks value.blocks.symm)
  | .ifThen condition yes past, has, marked => by
    rcases yes.handed has marked with before | ⟨o, hands⟩
    · exact .inl (before.of_blocks condition.blocks.symm)
    · exact .inr ⟨o, hands.mono fun logged => .ifThen condition logged past⟩
  | .ifElse condition yes past no out, has, marked => by
    rcases no.handed has marked with between | ⟨o, hands⟩
    · rcases yes.handed between marked with before | ⟨o, hands⟩
      · exact .inl (before.of_blocks condition.blocks.symm)
      · exact .inr ⟨o, hands.mono fun logged => .ifYes condition logged past no out⟩
    · exact .inr ⟨o, hands.mono fun logged => .ifNo condition yes past logged out⟩
  | .whileLoop condition body run, has, marked => by
    rcases body.handed has marked with before | ⟨o, hands⟩
    · exact .inl (before.of_blocks condition.blocks.symm)
    · exact .inr ⟨o, hands.mono fun logged => .whileLoop condition logged run⟩
  | .doWhile body condition run, has, marked => by
    rcases body.handed (has.of_blocks condition.blocks.symm) marked with before | ⟨o, hands⟩
    · exact .inl before
    · exact .inr ⟨o, hands.mono fun logged => .doWhile logged condition run⟩
  | .block statements, has, marked => by
    rcases statements.handed (FrameStack.has_of_popBlock has) marked with before | ⟨o, hands⟩
    · exact .inl (FrameStack.has_pushBlock.mp before)
    · exact .inr ⟨o, hands.mono .block⟩
  | .returnsUnit, has, _ | .breakLoop, has, _ | .continueLoop, has, _ => .inl has
  | .returns value, has, _ | .print value, has, _
  | .expression value, has, _ => .inl (has.of_blocks value.blocks.symm)

theorem WritesList.handed {statements loop start e e' code} :
    WritesList symbols loop start statements e code e' →
      e'.frames.current.Has x l → l.captured = true →
        e.frames.current.Has x l ∨
          ∃ o, HandsOver (LogsList symbols loop start statements e code e') o x l
  | .nil, has, _ => .inl has
  | .cons first others, has, marked => by
    rcases others.handed has marked with between | ⟨o, hands⟩
    · rcases first.handed between marked with before | ⟨o, hands⟩
      · exact .inl before
      · exact .inr ⟨o, hands.mono fun logged => .first logged others⟩
    · exact .inr ⟨o, hands.mono fun logged => .later first logged⟩

end

/-- Where the body of a function is written, none of its locals is marked. -/
theorem WritesFunction.captured_eq_false
    (run : WritesFunction symbols start f parameters body insertReturn e store e₁ e₂ code e₃ value
      e') (has : e₂.frames.pushBlock.current.Has x l) : l.captured = false := by
  rw [Bool.eq_false_iff]
  intro marked
  obtain ⟨b, mem, known⟩ :=
    Emit.has_of_putLocals run.put (FrameStack.has_pushBlock.mp has) marked
  cases List.mem_singleton.mp mem
  cases known

mutual

/-- A marked local that is removed was marked before the statement, or an instruction further up
in the statement has handed it over. -/
theorem Statement.Logs.handed {loop start e e' code seen} (marked : l.captured = true)
    {s : Statement} :
    s.Logs symbols loop start e code e' o (.removes l) seen →
      ∃ x, seen.frames.current.Has x l ∧ (e.frames.current.Has x l ∨
        ∃ p < o, HandsOver (s.Logs symbols loop start e code e') p x l)
  | .body run inner => by
    obtain ⟨x, has, before | ⟨p, above, hands⟩⟩ := inner.handed marked
    · exact absurd (run.captured_eq_false before) (Bool.not_eq_false _ ▸ marked)
    · exact ⟨x, has, .inr ⟨p, above, hands.mono (.body run)⟩⟩
  | .bodyEnd run removed => by
    obtain ⟨x, has⟩ := FrameStack.has_of_mem_popBlock removed.mem
    refine ⟨x, has, ?_⟩
    rcases run.inner.handed has marked with before | ⟨p, hands⟩
    · exact absurd (run.captured_eq_false before) (Bool.not_eq_false _ ▸ marked)
    · obtain ⟨_, _, logged⟩ := hands.logged
      have above := logged.bounds.2
      have below := (Fragment.locate_bounds removed.mem_locate).1
      exact .inr ⟨p, by omega, hands.mono (.body run)⟩
  | .ifThen condition yes past => by
    obtain ⟨x, has, before | ⟨p, above, hands⟩⟩ := yes.handed marked
    · exact ⟨x, has, .inl (before.of_blocks condition.blocks.symm)⟩
    · exact ⟨x, has, .inr ⟨p, above, hands.mono fun logged => .ifThen condition logged past⟩⟩
  | .ifYes condition yes past no out => by
    obtain ⟨x, has, before | ⟨p, above, hands⟩⟩ := yes.handed marked
    · exact ⟨x, has, .inl (before.of_blocks condition.blocks.symm)⟩
    · exact ⟨x, has, .inr ⟨p, above,
        hands.mono fun logged => .ifYes condition logged past no out⟩⟩
  | .ifNo condition yes past no out => by
    obtain ⟨x, has, between | ⟨p, above, hands⟩⟩ := no.handed marked
    · refine ⟨x, has, ?_⟩
      rcases yes.handed between marked with before | ⟨p, hands⟩
      · exact .inl (before.of_blocks condition.blocks.symm)
      · obtain ⟨_, _, logged⟩ := hands.logged
        have above := logged.bounds.2
        have below := no.bounds.1
        exact .inr ⟨p, by omega, hands.mono fun logged => .ifYes condition logged past no.writes
          out⟩
    · exact ⟨x, has, .inr ⟨p, above,
        hands.mono fun logged => .ifNo condition yes past logged out⟩⟩
  | .whileLoop condition body run => by
    obtain ⟨x, has, before | ⟨p, above, hands⟩⟩ := body.handed marked
    · exact ⟨x, has, .inl (before.of_blocks condition.blocks.symm)⟩
    · exact ⟨x, has, .inr ⟨p, above, hands.mono fun logged => .whileLoop condition logged run⟩⟩
  | .doWhile body condition run => by
    obtain ⟨x, has, before | ⟨p, above, hands⟩⟩ := body.handed marked
    · exact ⟨x, has, .inl before⟩
    · exact ⟨x, has, .inr ⟨p, above, hands.mono fun logged => .doWhile logged condition run⟩⟩
  | .block statements => by
    obtain ⟨x, has, before | ⟨p, above, hands⟩⟩ := statements.handed marked
    · exact ⟨x, has, .inl (FrameStack.has_pushBlock.mp before)⟩
    · exact ⟨x, has, .inr ⟨p, above, hands.mono .block⟩⟩
  | .blockEnd statements removed => by
    obtain ⟨x, has⟩ := FrameStack.has_of_mem_popBlock removed.mem
    refine ⟨x, has, ?_⟩
    rcases statements.handed has marked with before | ⟨p, hands⟩
    · exact .inl (FrameStack.has_pushBlock.mp before)
    · obtain ⟨_, _, logged⟩ := hands.logged
      have above := logged.bounds.2
      have below := (Fragment.locate_bounds removed.mem_locate).1
      exact .inr ⟨p, by omega, hands.mono .block⟩
  | .breakLoop removed | .continueLoop removed => by
    obtain ⟨x, has⟩ := Frame.has_of_mem_localsFrom removed.mem
    exact ⟨x, has, .inl has⟩

theorem LogsList.handed {statements loop start e e' code seen} (marked : l.captured = true) :
    LogsList symbols loop start statements e code e' o (.removes l) seen →
      ∃ x, seen.frames.current.Has x l ∧ (e.frames.current.Has x l ∨
        ∃ p < o, HandsOver (LogsList symbols loop start statements e code e') p x l)
  | .first here others => by
    obtain ⟨x, has, before | ⟨p, above, hands⟩⟩ := here.handed marked
    · exact ⟨x, has, .inl before⟩
    · exact ⟨x, has, .inr ⟨p, above, hands.mono fun logged => .first logged others⟩⟩
  | .later first others => by
    obtain ⟨x, has, between | ⟨p, above, hands⟩⟩ := others.handed marked
    · refine ⟨x, has, ?_⟩
      rcases first.handed between marked with before | ⟨p, hands⟩
      · exact .inl before
      · obtain ⟨_, _, logged⟩ := hands.logged
        have above := logged.bounds.2
        have below := others.bounds.1
        exact .inr ⟨p, by omega, hands.mono fun logged => .first logged others.writes⟩
    · exact ⟨x, has, .inr ⟨p, above, hands.mono fun logged => .later first logged⟩⟩

end

/-! ### Instructions that close -/

theorem captured_of_discard (closes : Instruction.closeFree = l.discard) : l.captured = true := by
  unfold Local.discard at closes
  split at closes
  · assumption
  · cases closes

@[simp] theorem closeFree_ne_goto (d : Int16) : Instruction.closeFree ≠ .goto d := by
  intro same
  cases same

@[simp] theorem closeFree_ne_gotoDrop (value : Bool) (d : Int16) :
    Instruction.closeFree ≠ .gotoDrop value d := by
  intro same
  cases value <;> cases same

theorem closeFree_not_mem_of_evaluates {code : Code} (evaluates : code.Evaluates) :
    .closeFree ∉ code := by
  intro mem
  cases evaluates _ mem

theorem closeFree_not_mem_declare (run : Emit.declare s e = .ok (store, e')) :
    .closeFree ∉ store := by
  rcases Emit.declare_eq_ok run with ⟨_, index, _, _, rfl, _⟩ | ⟨_, _, _, rfl, _⟩
  · intro mem
    rcases List.mem_cons.mp mem with same | last
    · cases same
    · cases List.mem_singleton.mp last
  · exact List.not_mem_nil

theorem not_mem_locate {code : Code} (absent : i ∉ code) :
    (o, .instruction i) ∉ Fragment.locate start code.toFragment := by
  intro mem
  obtain ⟨_, inside, same⟩ := List.mem_map.mp (Fragment.mem_of_mem_locate mem)
  cases same
  exact absent inside

/-- Expressions close nothing, nor does what follows them. -/
theorem Expression.Writes.not_mem_locate {symbols : SymbolTable} {x : Expression} {e e' : Emission}
    {codes : List Code} {start o : Nat} {rest : Code} (run : x.Writes symbols none e codes e')
    (absent : .closeFree ∉ rest) : (o, .instruction .closeFree) ∉
      Fragment.locate start (Code.toFragment (codes.flatten ++ rest)) := by
  refine Bound.not_mem_locate fun mem => ?_
  rcases List.mem_append.mp mem with inside | behind
  · exact closeFree_not_mem_of_evaluates run.evaluates inside
  · exact absent behind

/-- What closes stands behind the condition. -/
theorem mem_locate_of_condition {rest : Fragment} {value : Bool} {d : Int16}
    (evaluates : condition.Evaluates) (mem : (o, .instruction .closeFree) ∈
      Fragment.locate start (condition.toFragment ++ .instruction (.gotoDrop value d) :: rest)) :
    (o, .instruction .closeFree) ∈ Fragment.locate (start + condition.size + jumpSize) rest := by
  simpa [Item.size, not_mem_locate (closeFree_not_mem_of_evaluates evaluates)] using mem

/-- What closes in a closed loop stood in its body. -/
theorem mem_locate_of_whileLoop {body : Fragment}
    (run : Fragment.whileLoop condition body = .ok code) (evaluates : condition.Evaluates)
    (mem : (o, .instruction .closeFree) ∈ Fragment.locate start code) :
    (o, .instruction .closeFree) ∈ Fragment.locate (start + condition.size + jumpSize) body := by
  obtain ⟨skip, back, _, _, closed⟩ := Emit.whileLoop_eq_ok run
  rcases (Fragment.closeLoop_settled closed start).instruction_cases mem with
    kept | ⟨_, _, _, jump, _⟩
  · simpa using mem_locate_of_condition evaluates kept
  · cases jump

theorem mem_locate_of_doWhile {body : Fragment} (run : Fragment.doWhile body condition = .ok code)
    (evaluates : condition.Evaluates)
    (mem : (o, .instruction .closeFree) ∈ Fragment.locate start code) :
    (o, .instruction .closeFree) ∈ Fragment.locate start body := by
  obtain ⟨back, _, closed⟩ := Emit.doWhile_eq_ok run
  rcases (Fragment.closeLoop_settled closed start).instruction_cases mem with
    kept | ⟨_, _, _, jump, _⟩
  · simpa [Emit.doWhileBody, not_mem_locate (closeFree_not_mem_of_evaluates evaluates)] using kept
  · cases jump

/-- In the code of a function, what closes stands in the body or at its end. -/
theorem WritesFunction.removal
    (run : WritesFunction symbols start f parameters body insertReturn e store e₁ e₂ code e₃ value
      e') (mem : (o, .instruction .closeFree) ∈ Fragment.locate start (value ++ store.toFragment)) :
    (o, .instruction .closeFree) ∈ Fragment.locate (start + jumpSize) code ∨
      ∃ l, l.captured = true ∧
        RemovedAt (start + jumpSize + Fragment.size code) e₃.frames.popBlock.1 o l := by
  obtain ⟨skip, ending, constant, closure, rfl, evaluates, returns, closed⟩ := run.code_eq
  have closing : Instruction.closeFree ∉ closure := by
    rcases Emit.closure_eq_ok closed with ⟨_, rfl⟩ | ⟨_, rfl, _⟩
    · exact List.not_mem_nil
    · intro mem
      cases List.mem_singleton.mp mem
  have returning : Instruction.closeFree ∉ ending := by
    rcases returns with rfl | rfl <;> decide
  have pushing : Instruction.closeFree ≠ constant := by
    rintro rfl
    cases evaluates _ List.mem_cons_self
  have inside : (o, .instruction .closeFree) ∈ Fragment.locate (start + jumpSize) code ∨
      (o, .instruction .closeFree) ∈ Fragment.locate (start + jumpSize + Fragment.size code)
        (Code.toFragment (e₃.frames.popBlock.1.map Local.discard)) := by
    simpa [Item.size, not_mem_locate closing, not_mem_locate returning, pushing,
      not_mem_locate (closeFree_not_mem_declare run.declared)] using mem
  refine inside.imp_right fun removed => ?_
  obtain ⟨l, same, removed⟩ := exists_removedAt removed
  exact ⟨l, captured_of_discard same, removed⟩

mutual

/-- What closes a captured variable is the removal of a marked local. -/
theorem Statement.Writes.removal {s : Statement} {loop start e e' code} :
    s.Writes symbols loop start e code e' →
      (o, .instruction .closeFree) ∈ Fragment.locate start code →
        ∃ l seen, l.captured = true ∧ s.Logs symbols loop start e code e' o (.removes l) seen
  | .function declared put body wrapped, mem => by
    have run : WritesFunction symbols _ _ _ _ _ _ _ _ _ _ _ _ _ := ⟨declared, put, body, wrapped⟩
    rcases run.removal mem with inside | ⟨l, marked, removed⟩
    · obtain ⟨l, seen, marked, logged⟩ := body.removal inside
      exact ⟨l, seen, marked, .body run logged⟩
    · exact ⟨l, _, marked, .bodyEnd run removed⟩
  | .declare value declared, mem =>
    absurd mem (value.not_mem_locate (closeFree_not_mem_declare declared))
  | .ifThen condition yes past, mem => by
    obtain ⟨l, seen, marked, logged⟩ :=
      yes.removal (mem_locate_of_condition condition.evaluates mem)
    exact ⟨l, seen, marked, .ifThen condition logged past⟩
  | .ifElse condition yes past no out, mem => by
    have ways := mem_locate_of_condition condition.evaluates mem
    rw [Fragment.locate_append, Fragment.locate_cons, List.mem_append, List.mem_cons] at ways
    rcases ways with first | jump | second
    · obtain ⟨l, seen, marked, logged⟩ := yes.removal first
      exact ⟨l, seen, marked, .ifYes condition logged past no out⟩
    · cases jump
    · rw [Nat.add_assoc (_ + jumpSize)] at second
      obtain ⟨l, seen, marked, logged⟩ := no.removal second
      exact ⟨l, seen, marked, .ifNo condition yes past logged out⟩
  | .whileLoop condition body run, mem => by
    obtain ⟨l, seen, marked, logged⟩ :=
      body.removal (mem_locate_of_whileLoop run condition.evaluates mem)
    exact ⟨l, seen, marked, .whileLoop condition logged run⟩
  | .doWhile body condition run, mem => by
    obtain ⟨l, seen, marked, logged⟩ :=
      body.removal (mem_locate_of_doWhile run condition.evaluates mem)
    exact ⟨l, seen, marked, .doWhile logged condition run⟩
  | .block statements, mem => by
    rw [Fragment.locate_append] at mem
    rcases List.mem_append.mp mem with inside | ending
    · obtain ⟨l, seen, marked, logged⟩ := statements.removal inside
      exact ⟨l, seen, marked, .block logged⟩
    · obtain ⟨l, same, removed⟩ := exists_removedAt ending
      exact ⟨l, _, captured_of_discard same, .blockEnd statements removed⟩
  | .returnsUnit, mem => absurd mem (not_mem_locate (by decide))
  | .returns value, mem | .print value, mem
  | .expression value, mem => absurd mem (value.not_mem_locate (by decide))
  | .breakLoop, mem => by
    rw [Fragment.locate_append] at mem
    have mem := (List.mem_append.mp mem).resolve_right (by simp)
    obtain ⟨l, same, removed⟩ := exists_removedAt mem
    exact ⟨l, _, captured_of_discard same, .breakLoop removed⟩
  | .continueLoop, mem => by
    rw [Fragment.locate_append] at mem
    have mem := (List.mem_append.mp mem).resolve_right (by simp)
    obtain ⟨l, same, removed⟩ := exists_removedAt mem
    exact ⟨l, _, captured_of_discard same, .continueLoop removed⟩

theorem WritesList.removal {statements loop start e e' code} :
    WritesList symbols loop start statements e code e' →
      (o, .instruction .closeFree) ∈ Fragment.locate start code →
        ∃ l seen, l.captured = true ∧
          LogsList symbols loop start statements e code e' o (.removes l) seen
  | .nil, mem => nomatch mem
  | .cons first others, mem => by
    rw [Fragment.locate_append] at mem
    rcases List.mem_append.mp mem with here | there
    · obtain ⟨l, seen, marked, logged⟩ := first.removal here
      exact ⟨l, seen, marked, .first logged others⟩
    · obtain ⟨l, seen, marked, logged⟩ := others.removal there
      exact ⟨l, seen, marked, .later first logged⟩

end

end Bindery.Bound
