import Bindery.Compile
import Bindery.Proofs.Scoping
import Bindery.Proofs.Contents
import Bindery.Proofs.Typing

/-!
Why a checked program cannot be written.

A program that binds without diagnostics can be written as code unless it exceeds a limit
of the machine or holds an error node (`SourceFile.emit_cases_of_clean`). Binding and
writing each keep their own account of what is in scope: the one by names, the other by
storage. They agree because a statement that is in scope only refers to symbols that have
storage when it is written, which is what `Statement.emit_safe` carries along. An error
node in a program without diagnostics comes from a name that the source did not have.
-/

namespace Bindery.Machine

def EmitError.isLimit : EmitError → Bool
  | .valueOutOfRange .. => true
  | .poolFull _ => true
  | .stringTooLong .. => true
  | .slotOverflow _ => true
  | .patchOutOfBounds .. => false
  | .unresolvedSymbol _ => false
  | .errorNode _ => false
  | .jumpOutsideLoop .. => false

def Limited {α : Type} (x : Except EmitError α) : Prop :=
  ∀ err, x = .error err → err.isLimit = true

namespace Limited

variable {α β : Type}

theorem ok {a : α} : Limited (.ok a) := fun _ failed => nomatch failed

theorem error {err : EmitError} (limit : err.isLimit = true) : Limited (.error err : Except _ α) :=
  fun _ failed => Except.error.inj failed ▸ limit

/-- A sequence of steps fails only where one of them does. -/
theorem bind {x : Except EmitError α} {f : α → Except EmitError β} (first : Limited x)
    (next : ∀ a, x = .ok a → Limited (f a)) : Limited (x >>= f) := by
  cases x with
  | error err => exact .error (first err rfl)
  | ok a => exact next a rfl

theorem toDistance (distance : Int) : Limited (toDistance distance) := by
  unfold Machine.toDistance
  split
  · exact .ok
  · exact .error rfl

theorem toWord16 (what : Quantity) (value : Nat) : Limited (toWord16 what value) := by
  unfold Machine.toWord16
  split
  · exact .ok
  · exact .error rfl

theorem toWord8 (what : Quantity) (value : Nat) : Limited (toWord8 what value) := by
  unfold Machine.toWord8
  split
  · exact .ok
  · exact .error rfl

/-- A pool refuses constants only at its limits. -/
theorem add (p : ConstantPool) (c : Constant) : Limited (p.add c) := by
  unfold ConstantPool.add ConstantPool.intern
  split
  · exact .ok
  · split
    · rename_i obstacle
      refine .error ?_
      unfold ConstantPool.obstacle? at obstacle
      split at obstacle
      · cases obstacle
        rfl
      · split at obstacle
        · split at obstacle
          · cases obstacle
            rfl
          · cases obstacle
        · cases obstacle
    · exact .ok

end Limited

end Bindery.Machine

namespace Bindery.Emit

open Machine (EmitError Limited)

variable {hole : Prop}

/-! ### Pieces of code -/

theorem limited_joinTests (value : Bool) :
    ∀ (operands : List Code) (size : Nat), Limited (joinTests value size operands)
  | [], _ => .ok
  | [_], _ => .ok
  | _ :: next :: others, _ => by
    rw [joinTests]
    · exact (Limited.toDistance _).bind fun _ _ =>
        (limited_joinTests value (next :: others) _).bind fun _ _ => .ok
    · exact List.cons_ne_nil _ _

/-- Exits are settled unless a distance is too large. -/
theorem limited_settleFrom (exit : Machine.LoopExit) (target : Nat) :
    ∀ (rest settled : Fragment) (offset : Nat),
      Limited (Fragment.settleFrom exit target offset settled rest)
  | [], _, _ => .ok
  | .instruction _ :: rest, _, _ => limited_settleFrom exit target rest _ _
  | .exit _ :: rest, _, _ => by
    rw [Fragment.settleFrom]
    split
    · exact (Limited.toDistance _).bind fun _ _ => limited_settleFrom exit target rest _ _
    · exact limited_settleFrom exit target rest _ _

theorem limited_closeLoop (loop : Fragment) (resume : Nat) :
    Limited (Fragment.closeLoop loop resume) :=
  (limited_settleFrom _ _ _ _ _).bind fun _ _ => limited_settleFrom _ _ _ _ _

theorem limited_whileLoop (condition : Code) (body : Fragment) :
    Limited (Fragment.whileLoop condition body) :=
  (Limited.toDistance _).bind fun _ _ => (Limited.toDistance _).bind fun _ _ =>
    limited_closeLoop _ _

theorem limited_doWhile (body : Fragment) (condition : Code) :
    Limited (Fragment.doWhile body condition) :=
  (Limited.toDistance _).bind fun _ _ => limited_closeLoop _ _

theorem limited_closure (captures : List Machine.Capture) : Limited (closure captures) := by
  unfold closure
  split
  · exact .ok
  · exact (Limited.toWord16 _ _).bind fun _ _ => .ok

/-! ### Steps -/

/-- A step that fails only at a limit, or at an error node if there is a hole. -/
def Safe {α : Type} (hole : Prop) (x : Except EmitError α) : Prop :=
  ∀ err, x = .error err → err.isLimit = true ∨ (∃ span, err = .errorNode span) ∧ hole

namespace Safe

variable {α β : Type} {e : Emission}

variable {x : Except EmitError α} {m : Emit α} {f : α → Emit β}

/-- To fail at a limit is safe. -/
theorem of_limited (h : Limited x) : Safe hole x :=
  fun err failed => .inl (h err failed)

theorem pure {a : α} : Safe hole ((pure a : Emit α) e) := fun _ failed => nomatch failed

theorem bind (first : Safe hole (m e)) (next : ∀ a e', m e = .ok (a, e') → Safe hole (f a e')) :
    Safe hole ((m >>= f) e) := by
  change Safe hole (m e >>= fun p => f p.1 p.2)
  cases run : m e with
  | error err =>
    intro _ failed
    cases failed
    exact first err run
  | ok p => exact next p.1 p.2 run

/-- A step that succeeds. -/
theorem step {a : α} {e' : Emission} (run : m e = .ok (a, e')) (next : Safe hole (f a e')) :
    Safe hole ((m >>= f) e) := by
  change Safe hole (m e >>= fun p => f p.1 p.2)
  rw [run]
  exact next

theorem lift (h : Limited x) : Safe hole ((liftM x : Emit α) e) := by
  change Safe hole (x >>= fun a => Except.ok (a, e))
  exact of_limited (h.bind fun _ _ => .ok)

end Safe

theorem limited_constant (c : Machine.Constant) (e : Emission) : Limited (constant c e) :=
  (Limited.add _ _).bind fun _ _ => .ok

theorem safe_literal (value : Literal) (e : Emission) : Safe hole (literal value e) := by
  cases value with
  | boolean value => cases value <;> exact .pure
  | _ => exact .bind (.of_limited (limited_constant _ e)) fun _ _ _ => .pure

theorem limited_put (fs : Storage.FrameStack) (s : SymbolId) : Limited (fs.put s) := by
  have current : Limited (fs.current.put s) := by
    unfold Storage.Frame.put
    split
    · exact .error rfl
    · simp only
      split <;> exact .ok
  unfold Storage.FrameStack.put
  cases run : fs.current.put s with
  | error err => exact .error (current err run)
  | ok => exact .ok

theorem limited_declare (s : SymbolId) (e : Emission) : Limited (declare s e) := by
  unfold declare
  split
  · refine Limited.bind ?_ fun _ _ => .ok
    unfold Storage.Globals.put
    split
    · exact .error rfl
    · exact .ok
  · exact (limited_put _ _).bind fun _ _ => .ok

theorem safe_putLocals {hole : Prop} :
    ∀ (locals : List SymbolId) (e : Emission), Safe hole (locals.forM putLocal e)
  | [], _ => .pure
  | _ :: rest, _ => .bind (.of_limited ((limited_put _ _).bind fun _ _ => .ok))
    fun _ e' _ => safe_putLocals rest e'

/-- A symbol that has storage is resolved, unless there is no room to take it over. -/
theorem limited_resolve {symbols : SymbolTable} {s : SymbolId} {e : Emission}
    (known : e.contents.Knows s) : Limited (resolve symbols s e) :=
  fun _ failed => by rw [resolve_eq_error failed known]; rfl

end Bindery.Emit

namespace Bindery.Bound

open Emit (Safe)
open Machine (Limited)

/-! ### Expressions -/

def ErrorsAreHoles (hole : Prop) (nodes : List Expression) : Prop :=
  ∀ span, .error span ∈ nodes → hole

section ErrorsAreHoles

variable {hole : Prop} {x : Expression} {first second : List Expression}

theorem ErrorsAreHoles.left (h : ErrorsAreHoles hole (first ++ second)) :
    ErrorsAreHoles hole first :=
  fun span mem => h span (List.mem_append_left _ mem)

theorem ErrorsAreHoles.right (h : ErrorsAreHoles hole (first ++ second)) :
    ErrorsAreHoles hole second :=
  fun span mem => h span (List.mem_append_right _ mem)

theorem ErrorsAreHoles.tail (h : ErrorsAreHoles hole (x :: first)) : ErrorsAreHoles hole first :=
  fun span mem => h span (List.mem_cons_of_mem _ mem)

end ErrorsAreHoles

def Stored (known : List SymbolId) (e : Emission) : Prop := ∀ s ∈ known, e.contents.Knows s

variable {known : List SymbolId} {e e' : Emission} {symbols : SymbolTable} {hole : Prop}
    {x : Expression}

/-- Symbols have storage as long as the contents stay. -/
theorem Stored.of_contents (h : Stored known e) (same : e'.contents = e.contents) :
    Stored known e' :=
  fun s mem => same ▸ h s mem

mutual

/-- An expression in scope is written unless a limit or a hole is met. -/
theorem Expression.operands_safe :
    ∀ (x : Expression) {chain : Option BinaryOperation} {e : Emission}, x.InScope known →
      Stored known e → ErrorsAreHoles hole x.nodes → Safe hole (x.operands symbols chain e)
  | .literal value _, _, e, _, _, _ =>
    .bind (Emit.safe_literal value e) fun _ _ _ => .pure
  | .reference s .., _, _, inScope, stored, _ =>
    .bind (.of_limited (Emit.limited_resolve (stored s inScope))) fun _ _ _ => .pure
  | .assignment s value .., _, _, inScope, stored, holes => by
    rw [Expression.operands]
    refine .bind (value.operands_safe inScope.2 stored holes.tail) fun _ e' run => ?_
    have stored := stored.of_contents (value.writes_of_operands run).contents
    exact .bind (.of_limited (Emit.limited_resolve (stored s inScope.1))) fun _ _ _ => .pure
  | .binary op left right .., _, _, inScope, stored, holes => by
    have first := holes.tail.left
    have second := holes.tail.right
    rw [Expression.operands]
    cases lowered : op.lowering with
    | apply =>
      refine .bind (left.operands_safe inScope.1 stored first) fun _ e' run => ?_
      have stored := stored.of_contents (left.writes_of_operands run).contents
      exact .bind (right.operands_safe inScope.2 stored second) fun _ _ _ => .pure
    | test =>
      refine .bind (left.operands_safe inScope.1 stored first) fun _ e' run => ?_
      have stored := stored.of_contents (left.writes_of_operands run).contents
      refine .bind (right.operands_safe inScope.2 stored second) fun _ _ _ => ?_
      split
      · exact .pure
      · exact .bind (.lift (Emit.limited_joinTests _ _ _)) fun _ _ _ => .pure
    | concat =>
      refine .bind (right.operands_safe inScope.2 stored second) fun _ e' run => ?_
      have stored := stored.of_contents (right.writes_of_operands run).contents
      refine .bind (left.operands_safe inScope.1 stored first) fun _ _ _ => ?_
      split
      · exact .pure
      · exact .bind (.lift (Limited.toWord16 _ _)) fun _ _ _ => .pure
  | .unary _ operand .., _, _, inScope, stored, holes => by
    rw [Expression.operands]
    exact .bind (operand.operands_safe inScope stored holes.tail) fun _ _ _ => .pure
  | .parenthesized inner _, _, _, inScope, stored, holes => by
    rw [Expression.operands]
    exact .bind (inner.operands_safe inScope stored holes.tail) fun _ _ _ => .pure
  | .call target arguments .., _, _, inScope, stored, holes => by
    rw [Expression.operands]
    refine .bind (argumentCode_safe arguments inScope.2 stored holes.tail.right) fun _ e' run => ?_
    have stored := stored.of_contents (writesArguments_of_code arguments run).expands.contents
    exact .bind (target.operands_safe inScope.1 stored holes.tail.left)
      fun _ _ _ => .pure
  | .ternary condition yes no .., _, _, inScope, stored, holes => by
    obtain ⟨tested, first, second⟩ := inScope
    rw [Expression.operands]
    refine .bind (condition.operands_safe tested stored holes.tail.left)
      fun _ e₁ run => ?_
    have stored := stored.of_contents (condition.writes_of_operands run).contents
    refine .bind (yes.operands_safe first stored holes.tail.right.left)
      fun _ e₂ run => ?_
    have stored := stored.of_contents (yes.writes_of_operands run).contents
    refine .bind (.lift (Limited.toDistance _)) fun _ _ past => ?_
    obtain ⟨_, rfl⟩ := Emit.lift_eq_ok.mp past
    refine .bind (no.operands_safe second stored holes.tail.right.right)
      fun _ _ _ => ?_
    exact .bind (.lift (Limited.toDistance _)) fun _ _ _ => .pure
  | .error span, _, _, _, _, holes => by
    intro err failed
    cases failed
    exact .inr ⟨⟨span, rfl⟩, holes span List.mem_cons_self⟩

theorem argumentCode_safe :
    ∀ (arguments : List Expression) {e : Emission}, ArgumentsInScope known arguments →
      Stored known e → ErrorsAreHoles hole (nodesOfArguments arguments) →
        Safe hole (argumentCode symbols arguments e)
  | [], _, _, _, _ => .pure
  | x :: rest, _, inScope, stored, holes => by
    rw [argumentCode]
    refine .bind (x.operands_safe inScope.1 stored holes.left) fun _ e' run => ?_
    have stored := stored.of_contents (x.writes_of_operands run).contents
    exact .bind (argumentCode_safe rest inScope.2 stored holes.right) fun _ _ _ => .pure

end

theorem Expression.emit_safe (inScope : x.InScope known) (stored : Stored known e)
    (holes : ErrorsAreHoles hole x.nodes) : Safe hole (x.emit symbols e) :=
  .bind (x.operands_safe inScope stored holes) fun _ _ _ => .pure

theorem Expression.contents_of_emit {code : Emit.Code} (run : x.emit symbols e = .ok (code, e')) :
    e'.contents = e.contents := by
  obtain ⟨_, _, written⟩ := Expression.writes_of_emit run
  exact written.contents

/-! ### Statements -/

/-- What is declared has storage from then on. -/
theorem Stored.declare {declared : List SymbolId} (h : Stored known e)
    (contents : e'.contents = declared.foldl Contents.declare e.contents) :
    Stored (declared ++ known) e' := by
  intro s mem
  rw [contents, Contents.knows_foldl_declare]
  exact (List.mem_append.mp mem).imp_right (h s)

/-- The body of a function knows its parameters and the function. -/
theorem Stored.enterFunction {parameters : List SymbolId} {f : SymbolId} {e₁ e₂ : Emission}
    {store : Emit.Code} (h : Stored known e) (declared : Emit.declare f e = .ok (store, e₁))
    (put : parameters.forM Emit.putLocal { e₁ with frames := e₁.frames.pushFrame.pushBlock } =
      .ok ((), e₂)) :
    Stored (parameters ++ f :: known) { e₂ with frames := e₂.frames.pushBlock } := by
  intro s mem
  rw [Emit.pushBlock_contents, Contents.knows_pushBlock, Emit.putLocals_contents put,
    Contents.knows_foldl_put, Emit.enterFunction_contents, Contents.knows_pushBlock,
    Contents.knows_pushFrame, Emit.declare_contents declared, Contents.knows_declare]
  rcases List.mem_append.mp mem with parameter | outside
  · exact .inl parameter
  · exact .inr ((List.mem_cons.mp outside).imp_right (h s))

theorem wrapFunction_safe (start arity : Nat) (captures : List Machine.Capture)
    (body : Emit.Fragment) (e : Emission) : Safe hole (wrapFunction start arity captures body e) :=
  .bind (.lift (Limited.toDistance _)) fun _ _ _ =>
    .bind (.lift (Limited.toWord16 _ _)) fun _ _ _ =>
      .bind (.lift (Limited.toWord8 _ _)) fun _ _ _ =>
        .bind (.of_limited (Emit.limited_constant _ _)) fun _ _ _ =>
          .bind (.lift (Emit.limited_closure _)) fun _ _ _ => .pure

/-- A jump inside a loop can be written. -/
theorem leaveLoop_safe {loop : Option Nat} (inside : loop.isSome = true) (exit : Machine.LoopExit)
    (span : Span) (e : Emission) : Safe hole (leaveLoop loop exit span e) := by
  cases loop with
  | none => cases inside
  | some => exact fun _ failed => nomatch failed

mutual

/-- A statement in scope is written unless a limit or a hole is met. -/
theorem Statement.emit_safe :
    ∀ (s : Statement) {known : List SymbolId} {loop : Option Nat} {start : Nat} {e : Emission},
      s.InScope loop.isSome known → Stored known e → ErrorsAreHoles hole s.nodes →
        Safe hole (s.emit symbols loop start e)
  | .function f parameters body _ _ _, _, _, _, e, inScope, stored,
    holes => by
    rw [Statement.emit]
    refine .bind (.of_limited (Emit.limited_declare f e)) fun store e₁ declared => ?_
    refine .step rfl (.step rfl ?_)
    refine .bind (Emit.safe_putLocals parameters _) fun _ e₂ put => .step rfl ?_
    have inside := stored.enterFunction declared put
    refine .bind (emitList_safe body inScope inside holes) fun _ _ _ => ?_
    refine .step rfl (.step rfl (.step rfl ?_))
    exact .bind (wrapFunction_safe _ _ _ _ _) fun _ _ _ => .pure
  | .declare .., _, _, _, _, inScope, stored, holes => by
    rw [Statement.emit]
    refine .bind (Expression.emit_safe inScope stored holes) fun _ _ _ => ?_
    exact .bind (.of_limited (Emit.limited_declare _ _)) fun _ _ _ => .pure
  | .ifThen _ yes _, _, _, _, _, inScope, stored, holes => by
    rw [Statement.emit]
    refine .bind (Expression.emit_safe inScope.1 stored holes.left) fun _ e₁ run => ?_
    have stored := stored.of_contents (Expression.contents_of_emit run)
    refine .bind (yes.emit_safe inScope.2 stored holes.right) fun _ _ _ => ?_
    exact .bind (.lift (Limited.toDistance _)) fun _ _ _ => .pure
  | .ifElse _ yes no _, _, _, _, _, inScope, stored, holes => by
    obtain ⟨tested, first, second⟩ := inScope
    rw [Statement.emit]
    refine .bind (Expression.emit_safe tested stored holes.left) fun _ e₁ run => ?_
    have stored := stored.of_contents (Expression.contents_of_emit run)
    refine .bind (yes.emit_safe first stored holes.right.left) fun _ e₂ run => ?_
    have stored := stored.declare (yes.writes_of_emit run).contents
    refine .bind (.lift (Limited.toDistance _)) fun _ _ past => ?_
    obtain ⟨_, rfl⟩ := Emit.lift_eq_ok.mp past
    refine .bind (no.emit_safe second stored holes.right.right) fun _ _ _ => ?_
    exact .bind (.lift (Limited.toDistance _)) fun _ _ _ => .pure
  | .whileLoop _ body _, _, _, _, _, inScope, stored, holes => by
    rw [Statement.emit]
    refine .step rfl ?_
    refine .bind (Expression.emit_safe inScope.1 stored holes.left) fun _ e₁ run => ?_
    have stored := stored.of_contents (Expression.contents_of_emit run)
    refine .bind (body.emit_safe inScope.2 stored holes.right) fun _ _ _ => ?_
    exact .lift (Emit.limited_whileLoop _ _)
  | .doWhile body .., _, _, _, _, inScope, stored, holes => by
    rw [Statement.emit]
    refine .step rfl ?_
    refine .bind (body.emit_safe inScope.1 stored holes.left) fun _ e₁ run => ?_
    have stored := stored.declare (body.writes_of_emit run).contents
    refine .bind (Expression.emit_safe inScope.2 stored holes.right) fun _ _ _ => ?_
    exact .lift (Emit.limited_doWhile _ _)
  | .block statements _, known, _, _, e, inScope, stored, holes => by
    rw [Statement.emit]
    refine .step rfl ?_
    have inside : Stored known { e with frames := e.frames.pushBlock } := fun s mem => by
      rw [Emit.pushBlock_contents]
      exact Contents.knows_pushBlock.mpr (stored s mem)
    refine .bind (emitList_safe statements inScope inside holes) fun _ _ _ => ?_
    exact .step rfl .pure
  | .returns none _, _, _, _, _, _, _, _ => fun _ failed => nomatch failed
  | .returns (some _) _, _, _, _, _, inScope, stored, holes => by
    rw [Statement.emit]
    exact .bind (Expression.emit_safe inScope stored holes) fun _ _ _ => .pure
  | .breakLoop span, _, _, _, e, inScope, _, _ | .continueLoop span, _, _, _, e, inScope, _, _ =>
    leaveLoop_safe inScope _ span e
  | .print value span, known, loop, start, e, inScope, stored, holes
  | .expression .., _, _, _, _, inScope, stored, holes => by
    rw [Statement.emit]
    exact .bind (Expression.emit_safe inScope stored holes) fun _ _ _ => .pure

theorem emitList_safe :
    ∀ (statements : List Statement) {known : List SymbolId} {loop : Option Nat} {start : Nat}
      {written : Emit.Fragment} {e : Emission}, ListInScope loop.isSome known statements →
      Stored known e → ErrorsAreHoles hole (nodesOfList statements) →
        Safe hole (emitList symbols loop start written statements e)
  | [], _, _, _, _, _, _, _, _ => .pure
  | s :: rest, _, _, _, _, _, inScope, stored, holes => by
    rw [emitList]
    refine .bind (s.emit_safe inScope.1 stored holes.left) fun _ e' run => ?_
    exact emitList_safe rest inScope.2
      (stored.declare (s.writes_of_emit run).contents) holes.right

end

end Bindery.Bound

namespace Bindery.Bound

variable {hole : Prop}

/-! ### Programs -/

/-- A program in scope is written unless a limit or a hole is met. -/
theorem Program.emit_safe {p : Program} (inScope : ListInScope false [] p.statements)
    (holes : ErrorsAreHoles hole (nodesOfList p.statements)) : Emit.Safe hole p.emit := by
  have code : Emit.Safe hole p.emitCode := by
    have statements : Emit.Safe hole (emitList p.symbols none 0 [] p.statements .empty) :=
      emitList_safe p.statements inScope (fun _ mem => nomatch mem) holes
    unfold Program.emitCode
    cases run : emitList p.symbols none 0 [] p.statements .empty with
    | error err =>
      intro _ failed
      simp only [StateT.run, run, bind, Except.bind] at failed
      cases failed
      exact statements err run
    | ok =>
      intro _ failed
      simp only [StateT.run, run, bind, Except.bind] at failed
      cases failed
  unfold Program.emit
  cases run : p.emitCode with
  | error err =>
    intro _ failed
    simp only [bind, Except.bind] at failed
    cases failed
    exact code err run
  | ok =>
    exact .of_limited ((Machine.Limited.toWord16 _ _).bind fun _ _ => .ok)

end Bindery.Bound

namespace Bindery

variable {file : SourceFile} {err : Machine.EmitError}

/-- Writing a file without diagnostics fails at a limit of the machine or at an error node. -/
theorem SourceFile.emit_error_of_clean (clean : file.bind.2 = [])
    (failed : file.bind.1.emit = .error err) :
    err.isLimit = true ∨ ∃ span, err = .errorNode span := by
  obtain ⟨b, run, _, found, _⟩ := SourceFile.binds_of_clean clean
  have inScope : Bound.ListInScope false [] file.bind.1.statements :=
    run.inScope found fun _ _ seen => by cases seen
  have holes : Bound.ErrorsAreHoles True (Bound.nodesOfList file.bind.1.statements) :=
    fun _ _ => trivial
  rcases Bound.Program.emit_safe inScope holes err failed with limit | ⟨node, _⟩
  · exact .inl limit
  · exact .inr node

/-- Without diagnostics, compiling is writing. -/
theorem SourceFile.compile_of_clean (clean : file.bind.2 = []) :
    file.compile = file.bind.1.emit.mapError .ofEmitError := by
  unfold compile
  split
  · rename_i program bound
    rw [bound]
  · rename_i program found none bound
    rw [bound] at clean
    exact absurd clean none

/-- A file with diagnostics is not written. -/
theorem SourceFile.compile_of_found (found : file.bind.2 ≠ []) :
    file.compile = .error (.diagnostics (file.bind.2.map (·.inFile file.fileName))) := by
  unfold compile
  split
  · rename_i program bound
    rw [bound] at found
    exact absurd rfl found
  · rename_i program _ _ bound
    rw [bound]

theorem CompileError.ofEmitError_of_isLimit (limit : err.isLimit = true) :
    ofEmitError err = .emit err := by
  cases err with
  | errorNode => cases limit
  | _ => rfl

/-- A file without diagnostics is compiled to its image, exceeds a limit of the machine or is
incomplete. -/
theorem SourceFile.compile_cases_of_clean (clean : file.bind.2 = []) :
    (∃ image, file.compile = .ok image ∧ file.bind.1.emit = .ok image) ∨
      (∃ cause, file.compile = .error (.emit cause) ∧ cause.isLimit = true) ∨
      ∃ span, file.compile = .error (.incomplete span) := by
  rw [compile_of_clean clean]
  cases written : file.bind.1.emit with
  | ok image => exact .inl ⟨image, rfl, rfl⟩
  | error err =>
    rcases emit_error_of_clean clean written with limit | ⟨span, rfl⟩
    · refine .inr (.inl ⟨err, ?_, limit⟩)
      exact congrArg Except.error (CompileError.ofEmitError_of_isLimit limit)
    · exact .inr (.inr ⟨span, rfl⟩)

/-- A file that binds without diagnostics has an image, or exceeds a limit of the machine, or
is stopped at an error node; the last only if the source lacks a name somewhere. -/
theorem SourceFile.emit_cases_of_clean {file : SourceFile} (clean : file.bind.2 = []) :
    (∃ image, file.bind.1.emit = .ok image) ∨
      (∃ err, file.bind.1.emit = .error err ∧ err.isLimit = true) ∨
      ∃ span, file.bind.1.emit = .error (.errorNode span) ∧
        ∃ i ∈ file.identifiers, i.name = "" := by
  obtain ⟨b, run, _, found, _⟩ := SourceFile.binds_of_clean clean
  have inScope : Bound.ListInScope false [] file.bind.1.statements :=
    run.inScope found fun _ _ seen => by cases seen
  have holes : Bound.ErrorsAreHoles (∃ i ∈ file.identifiers, i.name = "")
      (Bound.nodesOfList file.bind.1.statements) := by
    intro span mem
    refine Classical.byContradiction fun complete => ?_
    have named : AllNamed file.identifiers := allNamed_of_ne fun i mem empty =>
      complete ⟨i, mem, empty⟩
    have proper := (SourceFile.wellTyped_of_allNamed named clean).nodes _ mem
    exact Bool.false_ne_true proper.isError_eq_false.symm
  cases written : file.bind.1.emit with
  | ok image => exact .inl ⟨image, rfl⟩
  | error err =>
    rcases Bound.Program.emit_safe inScope holes err written with limit | ⟨⟨span, rfl⟩, hole⟩
    · exact .inr (.inl ⟨err, rfl, limit⟩)
    · exact .inr (.inr ⟨span, rfl, hole⟩)

open Unplaced in
/-- A file that lacks the name of one of its variables, in a block of a loop in a function:
`fun f(n: Int) { while (n < 3) { let a = n { let _ = a print _ } } } f(1)`. It has no diagnostics,
and its image fails at the reference to the variable. -/
def namelessFile : SourceFile :=
  source "nameless" [
    function "f" [("n", "Int")] none
      [whileLoop (binary .less (use "n") (int 3)) [val "a" (use "n"),
        block [val "" (use "a"), print (.reference ⟨"", ⟨40, 0⟩⟩)]]],
    .expression (call "f" [int 1]) default]

theorem namelessFile_stopped :
    namelessFile.bind.2 = [] ∧ namelessFile.bind.1.emit = .error (.errorNode ⟨40, 0⟩) ∧
      ∃ i ∈ namelessFile.identifiers, i.name = "" := by
  have known : namelessFile.bind.2 = [] ∧ (match namelessFile.bind.1.emit with
      | .ok _ => none
      | .error err => some err) = some (.errorNode ⟨40, 0⟩) := by
    decide +kernel
  obtain ⟨clean, fails⟩ := known
  refine ⟨clean, ?_⟩
  rcases SourceFile.emit_cases_of_clean clean with ⟨_, written⟩ | ⟨_, written, limit⟩ |
    ⟨_, written, unnamed⟩
  · rw [written] at fails
    cases fails
  · rw [written] at fails
    cases fails
    cases limit
  · rw [written] at fails
    cases fails
    exact ⟨written, unnamed⟩

end Bindery
