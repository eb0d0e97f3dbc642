import Bindery.Compile
import Bindery.Proofs.ExpressionFlow
import Bindery.Proofs.Tidy
import Bindery.Proofs.WellFormed
import Bindery.Tree.Unplaced

/-!
Emitted code keeps the stack in order.

Between two statements, the stack holds the locals of the current function and nothing else.
`Statement.Writes.flows` proves this for every way in which a statement is written: from the
number of locals before it, its code leads to the number of locals behind it, unless it ends.
Jumps out of a loop first come down to the number of locals below the loop, and the code of a
function starts with its parameters. So the code of a compiled program can be given heights
everywhere (`SourceFile.stackSafe_of_compile`).
-/

namespace Bindery

/-! ### Functions in the pool -/

/-- Interning adds a constant or leaves the pool as it is. -/
theorem Machine.ConstantPool.toList_intern {p p' : ConstantPool} {c : Constant} {index : Nat}
    (run : p.intern c = ⟨p', .ok index⟩) : p'.toList = p.toList ∨ p'.toList = p.toList ++ [c] := by
  unfold intern at run
  split at run
  · cases run
    exact .inl rfl
  · split at run
    · cases run
    · cases run
      exact .inr (Numbering.toList_push _ _ ((p.entries.number?_eq_none_iff c).mp ‹_›))

/-- Where the functions written so far start, with the numbers of their parameters. -/
def Emission.functions (e : Emission) : Set (Nat × Nat) := {f | f ∈ e.constants.functions}

namespace Emit

variable {e e' : Emission}

/-- A constant that is added is the only one that can be a new function. -/
theorem mem_functions_of_constant {c : Machine.Constant} {i : Machine.Instruction}
    {function : Nat × Nat} (run : constant c e = .ok (i, e')) (mem : function ∈ e'.functions) :
    function ∈ e.functions ∨
      ∃ entry arity, c = .function entry arity ∧ function = (entry.toNat, arity.toNat) := by
  obtain ⟨_, _, added, _, rfl⟩ := constant_eq_ok run
  obtain ⟨other, member, named⟩ := List.mem_filterMap.mp mem
  rcases Machine.ConstantPool.toList_intern added with same | more
  · rw [same] at member
    exact .inl (List.mem_filterMap.mpr ⟨other, member, named⟩)
  · rw [more] at member
    rcases List.mem_append.mp member with before | last
    · exact .inl (List.mem_filterMap.mpr ⟨other, before, named⟩)
    · cases List.mem_singleton.mp last
      cases c with
      | function entry arity => exact .inr ⟨entry, arity, rfl, (Option.some.inj named).symm⟩
      | _ => cases named

variable {s : SymbolId}

theorem resolve_functions {symbols : SymbolTable} {slot : Storage.Slot}
    (run : resolve symbols s e = .ok (slot, e')) : e'.functions = e.functions := by
  rcases resolve_eq_ok run with ⟨_, _, _, rfl⟩ | ⟨_, _, _, _, rfl⟩ | ⟨_, _, rfl⟩ <;> rfl

theorem declare_functions {store : Code} (run : declare s e = .ok (store, e')) :
    e'.functions = e.functions := by
  rcases declare_eq_ok run with ⟨_, _, _, _, _, rfl⟩ | ⟨_, _, _, _, rfl⟩ <;> rfl

theorem putLocals_functions {locals : List SymbolId}
    (run : locals.forM putLocal e = .ok ((), e')) : e'.functions = e.functions := by
  induction locals generalizing e with
  | nil =>
    obtain ⟨_, rfl⟩ := pure_eq_ok.mp run
    rfl
  | cons _ _ ih =>
    obtain ⟨_, _, others⟩ := putLocals_cons run
    have behind := ih others
    exact behind

end Emit

/-- Expressions declare no functions. -/
theorem Emission.Expands.functions {symbols : SymbolTable} {e e' : Emission}
    (run : Expands symbols e e') : e'.functions ⊆ e.functions := by
  refine run.preserves (P := fun a => a.functions ⊆ e.functions) ?_ (List.Subset.refl _)
  rintro a b (⟨other, added⟩ | found) sub function mem
  · rcases Emit.mem_functions_of_constant added mem with before | ⟨entry, arity, same, _⟩
    · exact sub before
    · exact absurd same (other entry arity)
  · exact sub ((Emit.resolve_functions found).le mem)

end Bindery

namespace Bindery.Bound

open Emit (Code Fragment Moves jumpSize)
open Emit.Fragment (At Flows)

theorem Expression.Writes.functions {symbols : SymbolTable} {x : Expression}
    {chain : Option BinaryOperation} {e e' : Emission} {codes : List Code}
    (run : x.Writes symbols chain e codes e') : e'.functions ⊆ e.functions :=
  run.expands.functions

/-! ### Parts of statements -/

theorem noCalls_discards (start : Nat) (locals : List Storage.Local) :
    Emit.Fragment.callOffsets start (Code.toFragment (locals.map Storage.Local.discard)) = [] := by
  induction locals generalizing start with
  | nil => rfl
  | cons l _ ih =>
    have other : (Emit.Item.instruction l.discard).isCall = false := by
      unfold Storage.Local.discard
      split <;> rfl
    simp only [Emit.Fragment.callOffsets, List.map_cons, Code.toFragment_cons,
      Emit.Fragment.locate_cons, List.filter_cons, other] at ih ⊢
    exact ih _

theorem moves_setGlobal (room : Nat) (index : UInt16) : Moves room [.setGlobal index] [] 1 1 :=
  .plain (n := 0) nofun rfl (Nat.le_refl _) rfl nofun

variable {ids parameters : List SymbolId} {store : Code} {e e' e₁ e₂ : Emission}
    {captures : List Machine.Capture} {statements : List Statement} {loop entry : Option Nat}
    {start : Nat} {marks : Set (Nat × Nat)} {code : Fragment} {calls : List Nat} {f : SymbolId}
    {symbols : SymbolTable}

/-- What a declaration leaves on the stack is its local, if it has one. -/
theorem moves_declare {s : SymbolId} (room : Nat) (ready : e.Ready (s :: ids))
    (run : Emit.declare s e = .ok (store, e')) :
    ∃ k, Moves room store [] 1 k ∧ e'.locals = e.locals + k := by
  rcases (ready.declare run).2 with ⟨index, rfl, same⟩ | ⟨rfl, more⟩
  · have stored := moves_setGlobal room index
    exact ⟨0, stored.append (.simple room .pop rfl (by decide)), same⟩
  · exact ⟨1, .nil room 1, more⟩

theorem moves_closure {code : Code} (room : Nat) (run : Emit.closure captures = .ok code) :
    Moves room code [] 1 1 := by
  rcases Emit.closure_eq_ok run with ⟨_, rfl⟩ | ⟨_, rfl, _⟩
  · exact .nil room 1
  · exact .plain (n := 0) nofun rfl (Nat.le_refl _) rfl nofun

/-- The locals of a block are removed at its end, unless the end is not reached. -/
theorem flows_leaveBlock {exit : Option Nat}
    (inner : ∀ exit, EndsList statements ∨ exit = some e.locals →
      Flows loop ∅ marks start code calls entry exit) (leaves : EndsList statements ∨
      exit = some (Emission.locals { e with frames := e.frames.popBlock.2 })) :
    Flows loop ∅ marks start
      (code ++ Code.toFragment (e.frames.popBlock.1.map Storage.Local.discard)) calls entry
      exit := by
  rcases leaves with ends | rfl
  · exact (inner none (.inl ends)).finish (.dead loop _ exit (noCalls_discards _ _)) rfl
  · have removed := Moves.discards 0 e.frames.popBlock.1 loop
      (start + Fragment.size code) (Emission.locals { e with frames := e.frames.popBlock.2 })
      (Nat.zero_le _)
    rw [e.length_popBlock] at removed
    exact (inner _ (.inr rfl)).finish removed rfl

/-- A jump out of a loop comes down to the locals below the loop. -/
theorem flows_leaveLoop {base : Nat} (x : Machine.LoopExit) (dense : e.Dense)
    (below : base ≤ e.locals) (exit : Option Nat) :
    Flows (some base) ∅ ∅ start
      (Code.toFragment ((e.frames.current.localsFrom base).map Storage.Local.discard) ++ [.exit x])
      [] (some e.locals) exit := by
  have removed := Moves.discards 0 (e.frames.current.localsFrom base) (some base) start base
    (Nat.zero_le _)
  have count : base + (e.frames.current.localsFrom base).length = e.locals := by
    rw [(dense _ List.mem_cons_self).length_localsFrom below]
    exact Nat.add_sub_cancel' below
  rw [count] at removed
  exact removed.finish (.exits x base exit) rfl

/-- Nothing follows a return, so behind it the stack may have any height. -/
theorem flows_return {room h : Nat} {value : Code} (pushed : Moves room value calls 0 1)
    (below : room ≤ h) (exit : Option Nat) :
    Flows loop ∅ ∅ start (Code.toFragment (value ++ [.ret])) calls (some h) exit := by
  rw [Code.toFragment_append]
  exact (pushed loop start h below).finish (.ret h exit) rfl

/-- A body ends in a return on every path. -/
theorem flows_functionBody {insertReturn : Bool}
    (inner : ∀ exit, EndsList statements ∨ exit = some e.locals →
      Flows none ∅ marks start code calls entry exit)
    (inserted : insertReturn = true ↔ ¬ EndsList statements) (exit : Option Nat) :
    Flows none ∅ marks start
      (code ++ (functionEnding insertReturn e.frames.popBlock.1).toFragment) calls entry exit := by
  by_cases ends : EndsList statements
  · have kept : insertReturn = false := Bool.eq_false_iff.mpr fun now => inserted.mp now ends
    subst kept
    exact flows_leaveBlock inner (.inl ends)
  · obtain rfl := inserted.mpr ends
    have removed := flows_leaveBlock inner (.inr rfl)
    change Flows none ∅ marks start (code ++ Code.toFragment (_ ++ [.pushTrue, .ret])) _ _ _
    rw [Code.toFragment_append, ← List.append_assoc]
    have value : Moves 0 [.pushTrue] [] 0 1 := .simple 0 .pushTrue rfl (by decide)
    exact removed.finish (flows_return value (Nat.zero_le _) exit) rfl

/-- What comes before the body of a function writes no functions. -/
theorem functions_enterFunction (declared : Emit.declare f e = .ok (store, e₁))
    (put : parameters.forM Emit.putLocal { e₁ with frames := e₁.frames.pushFrame.pushBlock } =
      .ok ((), e₂)) : e₂.functions = e.functions := by
  have parameters := Emit.putLocals_functions put
  rw [parameters, ← Emit.declare_functions declared]
  rfl

/-- A function is written behind a jump over its code, starts with its arguments, and is then
pushed as a value. -/
theorem flows_function {body : Fragment} (ready : e.Ready (parameters ++ f :: ids))
    (declared : Emit.declare f e = .ok (store, e₁))
    (inner : Flows none ∅ marks (start + jumpSize) body calls (some parameters.length)
      (some e.locals))
    (wrapped : wrapFunction start parameters.length captures body e₂ = .ok (code, e'))
    (same : e'.locals = e₁.locals) :
    Flows loop ∅ (marks ∪ (e'.functions \ e₂.functions)) start (code ++ store.toFragment) calls
      (some e.locals) (some e'.locals) := by
  obtain ⟨skip, entry, count, value, closure, past, entered, counted, added, closed, rfl⟩ :=
    wrapFunction_eq_ok wrapped
  obtain ⟨k, stored, more⟩ := moves_declare e.locals (ready.perm List.perm_middle) declared
  have pushed : Moves e.locals ([value] ++ (closure ++ store)) [] 0 k :=
    (Moves.constant _ added).append ((moves_closure _ closed).append stored)
  have whole := (inner.inLoop loop).function past rfl (pushed loop _ e.locals (Nat.le_refl _))
  rw [List.append_nil] at whole
  have joined : Emit.Item.instruction (.goto skip) ::
      (body ++ Code.toFragment ([value] ++ (closure ++ store))) =
        .instruction (.goto skip) :: (body ++ Code.toFragment (value :: closure)) ++
          store.toFragment := by
    simp
  rw [joined, ← more, ← same] at whole
  refine whole.weaken (Set.union_subset_union_right _ ?_)
  rintro place ⟨now, new⟩
  rcases Emit.mem_functions_of_constant added now with before | ⟨_, _, constant, rfl⟩
  · exact absurd before new
  · cases constant
    exact ⟨Machine.toWord16_eq_ok entered, congrArg some (Machine.toWord8_eq_ok counted).symm⟩

/-! ### Statements -/

mutual

/-- The numbers of arguments of the calls in a statement, in the order of their code. -/
def Statement.callArguments : Statement → List Nat
  | .function _ _ body .. => callArgumentsOfList body
  | .declare _ value _ => value.callArguments
  | .ifThen condition yes _ => condition.callArguments ++ yes.callArguments
  | .ifElse condition yes no _ =>
    condition.callArguments ++ (yes.callArguments ++ no.callArguments)
  | .whileLoop condition body _ => condition.callArguments ++ body.callArguments
  | .doWhile body condition _ => body.callArguments ++ condition.callArguments
  | .block statements _ => callArgumentsOfList statements
  | .returns none _ => []
  | .returns (some value) _ => value.callArguments
  | .breakLoop _ => []
  | .continueLoop _ => []
  | .print value _ => value.callArguments
  | .expression value _ => value.callArguments

def callArgumentsOfList : List Statement → List Nat
  | [] => []
  | s :: rest => s.callArguments ++ callArgumentsOfList rest

end

/-- What is new in the end was new at some point, and expressions add nothing before it. -/
theorem functions_diff_trans {e'' : Emission} (within : e₁.functions ⊆ e.functions) :
    e''.functions \ e.functions ⊆
      (e'.functions \ e₁.functions) ∪ (e''.functions \ e'.functions) := by
  rintro place ⟨now, new⟩
  by_cases between : place ∈ e'.functions
  · exact .inl ⟨between, fun before => new (within before)⟩
  · exact .inr ⟨now, between⟩

theorem functions_diff_subset (within : e₁.functions ⊆ e.functions) :
    e'.functions \ e.functions ⊆ e'.functions \ e₁.functions :=
  fun _ ⟨now, new⟩ => ⟨now, fun before => new (within before)⟩

theorem functions_diff_eq_empty (within : e'.functions ⊆ e.functions) :
    e'.functions \ e.functions = ∅ :=
  Set.subset_empty_iff.mp fun _ ⟨now, new⟩ => new (within now)

/-- A statement that declares nothing leaves as many locals as there were. -/
theorem Statement.Writes.locals_eq {s : Statement} (run : s.Writes symbols loop start e code e')
    (nothing : s.declares = []) : e'.locals = e.locals := by
  refine Emission.locals_of_contents ?_
  rw [run.contents, nothing]
  rfl

mutual

/-- From the locals before it, a statement leads to the locals behind it, unless it ends. -/
theorem Statement.Writes.flows {s : Statement} {loop start e e' code} :
    s.Writes symbols loop start e code e' → s.Tidy True → e.Ready s.introduces →
    (∀ base, loop = some base → base ≤ e.locals) → ∀ exit, s.Ends ∨ exit = some e'.locals →
      Flows loop ∅ (e'.functions \ e.functions) start code s.callArguments (some e.locals) exit
  | run@(.function declared put body wrapped), .function inner inserted, ready, _, _, leaves => by
    obtain ends | rfl := leaves
    · cases ends
    rw [Statement.introduces] at ready
    obtain ⟨entered, arity⟩ := ready_enterFunction ready declared put
    have round := body.flows inner entered nofun
    rw [arity] at round
    have same := Emission.locals_of_contents
      (run.contents.trans (Emit.declare_contents declared).symm)
    refine (flows_function ready declared (flows_functionBody round inserted _) wrapped
      same).weaken (functions_diff_trans ?_)
    exact (functions_enterFunction declared put).subset
  | .declare value declared, _, ready, _, _, leaves => by
    obtain ends | rfl := leaves
    · cases ends
    obtain ⟨k, stored, more⟩ := moves_declare _ (value.ready ready) declared
    rw [functions_diff_eq_empty ((Emit.declare_functions declared).trans_subset value.functions),
      more, Emission.locals_of_contents value.contents]
    exact (value.pushes ready.dense).finish stored _ _ _ (Nat.le_refl _)
  | .ifThen condition yes past, .ifThen inner nothing, ready, above, _, leaves => by
    obtain ends | rfl := leaves
    · cases ends
    have kept := Emission.locals_of_contents condition.contents
    have test := condition.pushes ready.dense
    have way := yes.flows inner (condition.ready ready) (kept ▸ above) _ (.inr rfl)
    rw [yes.locals_eq (nothing trivial), kept] at way ⊢
    refine (Flows.skip (test _ _ _ (Nat.le_refl _)) way ?_
      (Machine.toDistance_eq_ok past)).weaken (functions_diff_subset condition.functions)
    rw [Emit.Fragment.size_toFragment]
  | .ifElse condition yes past no out, .ifElse first nothing second nothing', ready, above, exit,
    leaves => by
    have kept := Emission.locals_of_contents condition.contents
    have kept' := yes.locals_eq (nothing trivial)
    rw [Statement.introduces] at ready
    have test := condition.pushes ready.dense
    have between := condition.ready ready
    have way := yes.flows first (between.sublist (List.sublist_append_left _ _)) (kept ▸ above)
      exit (leaves.imp (fun | .ifElse one _ => one)
        fun same => same.trans (congrArg some (no.locals_eq (nothing' trivial))))
    have way' := no.flows second (yes.ready between) (kept' ▸ kept ▸ above) exit
      (leaves.imp_left fun | .ifElse _ two => two)
    rw [kept', kept] at way'
    rw [kept] at way
    refine (Flows.branch (test _ _ _ (Nat.le_refl _)) way ?_ (Machine.toDistance_eq_ok past)
      way' ?_ (Machine.toDistance_eq_ok out)).weaken (functions_diff_trans condition.functions)
    · rw [Emit.Fragment.size_toFragment]
    · omega
  | .whileLoop condition body run, .whileLoop inner nothing, ready, _, _, leaves => by
    obtain ends | rfl := leaves
    · cases ends
    have kept := Emission.locals_of_contents condition.contents
    have test := condition.pushes ready.dense
    have round := body.flows inner (condition.ready ready)
      (fun base same => by cases same; exact kept.ge) _ (.inr rfl)
    rw [body.locals_eq (nothing trivial), kept] at round ⊢
    exact (Flows.whileLoop _ (test _ _ _ (Nat.le_refl _)) round rfl run).weaken
      (functions_diff_subset condition.functions)
  | .doWhile body condition run, .doWhile inner nothing, ready, _, _, leaves => by
    obtain ends | rfl := leaves
    · cases ends
    have kept := body.locals_eq (nothing trivial)
    have round := body.flows inner ready
      (fun base same => by cases same; exact Nat.le_refl _) _ (.inr rfl)
    have test := condition.pushes (body.dense ready)
    rw [Emission.locals_of_contents condition.contents]
    rw [kept] at round test ⊢
    refine (Flows.doWhile _ round (test _ _ _ (Nat.le_refl _)) run).weaken ?_
    exact fun _ ⟨now, new⟩ => ⟨condition.functions now, new⟩
  | .block statements, .block inner, ready, above, _, leaves => by
    have round := statements.flows inner ready.pushBlock
      (fun base same => (Emission.locals_pushBlock _).symm ▸ above base same)
    rw [Emission.locals_pushBlock] at round
    refine flows_leaveBlock round (leaves.imp_left ?_)
    rintro (_ | _ | _ | _ | ⟨mem, ends⟩)
    exact ⟨_, mem, ends⟩
  | .returnsUnit, _, _, _, exit, _ => by
    rw [functions_diff_eq_empty subset_rfl]
    exact flows_return (.simple 0 .pushTrue rfl (by decide)) (Nat.zero_le _) exit
  | .returns value, _, ready, _, exit, _ => by
    rw [functions_diff_eq_empty value.functions]
    exact flows_return (value.pushes ready.dense) (Nat.le_refl _) exit
  | .breakLoop, _, ready, above, exit, _ | .continueLoop, _, ready, above, exit, _ => by
    rw [functions_diff_eq_empty subset_rfl]
    exact flows_leaveLoop _ ready.dense (above _ rfl) exit
  | .print value, _, ready, _, _, leaves => by
    obtain ends | rfl := leaves
    · cases ends
    rw [functions_diff_eq_empty value.functions, Emission.locals_of_contents value.contents]
    exact (value.pushes ready.dense).finish (.simple (k := 0) _ .print rfl (by decide)) _ _ _
      (Nat.le_refl _)
  | .expression value, _, ready, _, _, leaves => by
    obtain ends | rfl := leaves
    · cases ends
    rw [functions_diff_eq_empty value.functions, Emission.locals_of_contents value.contents]
    exact (value.pushes ready.dense).finish (.simple (k := 0) _ .pop rfl (by decide)) _ _ _
      (Nat.le_refl _)

theorem WritesList.flows {statements loop start e e' code} :
    WritesList symbols loop start statements e code e' →
      TidyList True statements → e.Ready (introducesList statements) →
      (∀ base, loop = some base → base ≤ e.locals) →
      ∀ exit, EndsList statements ∨ exit = some e'.locals →
        Flows loop ∅ (e'.functions \ e.functions) start code (callArgumentsOfList statements)
          (some e.locals) exit
  | .nil, _, _, _, _, leaves => by
    obtain ends | rfl := leaves
    · exact absurd ends not_endsList_nil
    rw [functions_diff_eq_empty subset_rfl]
    exact .nil _ _ _
  | .cons (s := s) first others, .cons one nothing rest, ready, above, exit, leaves => by
    rw [introducesList] at ready
    have here := ready.sublist (List.sublist_append_left _ _)
    by_cases ends : s.Ends
    · obtain rfl := nothing ends
      cases others
      rw [List.append_nil, callArgumentsOfList, callArgumentsOfList, List.append_nil]
      exact first.flows one here above exit (.inl ends)
    · have left := first.flows one here above _ (.inr rfl)
      have right := others.flows rest (first.ready ready)
        (fun base same => (above base same).trans first.locals_le) exit
        (leaves.imp_left fun list => (endsList_cons.mp list).resolve_left ends)
      have both := left.seq _ right rfl (Set.empty_subset _)
        (Set.union_subset_union_left _ Set.subset_union_left)
      exact both.weaken (functions_diff_trans subset_rfl)

end

/-! ### Programs -/

/-- No local is left where a program ends. -/
theorem WritesList.locals_eq_zero (run : WritesList symbols none 0 statements .empty code e) :
    e.locals = 0 := by
  rw [Emission.locals_eq, run.contents]
  exact Contents.locals_foldl_declare_of_isGlobal _ rfl

/-- The code of a tidy program has heights everywhere. -/
theorem Program.stackSafe_of_emitCode {p : Program} {code : Code} (run : p.emitCode = .ok (code, e))
    (tidy : TidyList True p.statements) (once : (introducesList p.statements).Nodup) :
    ∃ arguments height,
      (Machine.callOffsets (Machine.locate 0 code)).map arguments =
          callArgumentsOfList p.statements ∧
        Machine.StackSafe (Machine.locate 0 code) ((0, 0) :: e.constants.functions) arguments
          height := by
  obtain ⟨f, rfl, statements⟩ := Program.writes_of_emitCode run
  have body := statements.flows tidy (.empty once) nofun _ (.inr rfl)
  rw [statements.locals_eq_zero] at body
  have halt : Flows none ∅ ∅ (0 + Emit.Fragment.size f) (Code.toFragment [.halt]) [] (some 0)
      none := .last rfl rfl (Nat.le_refl 0) (fun _ => rfl) none
  have whole := body.finish halt rfl
  rw [← Emit.Fragment.toFragment_toCode fun x => statements.exit_not_mem,
    ← Code.toFragment_append] at whole
  refine whole.stackSafe fun root mem => ?_
  rcases List.mem_cons.mp mem with rfl | function
  · exact .inr ⟨rfl, rfl⟩
  · exact .inl ⟨function, List.not_mem_nil⟩

end Bindery.Bound

namespace Bindery

/-- A file is compiled by writing what is bound without diagnostics. -/
theorem SourceFile.emit_of_compile {file : SourceFile} {image : Machine.Image}
    (compiled : file.compile = .ok image) : file.bind.2 = [] ∧ file.bind.1.emit = .ok image := by
  unfold compile at compiled
  split at compiled
  · rename_i program bound
    rw [bound]
    refine ⟨rfl, ?_⟩
    cases written : program.emit with
    | ok =>
      rw [written] at compiled
      cases compiled
      rfl
    | error =>
      rw [written] at compiled
      cases compiled
  · cases compiled

/-- The code of a compiled file whose declarations stand in statement lists has heights
everywhere: it starts with an empty stack, and each function with its arguments. -/
theorem SourceFile.stackSafe_of_compile {file : SourceFile} {image : Machine.Image}
    (listed : file.DeclaresInLists) (compiled : file.compile = .ok image) :
    ∃ code arguments height, Machine.disassemble image.code = .ok code ∧
      (Machine.callOffsets code).map arguments =
          Bound.callArgumentsOfList file.bind.1.statements ∧
        Machine.StackSafe code ((0, 0) :: image.constants.functions) arguments height := by
  obtain ⟨clean, written⟩ := emit_of_compile compiled
  obtain ⟨b, run, _, found, paths⟩ := binds_of_clean clean
  obtain ⟨code, e, emitted, constants, bytes⟩ := Bound.Program.emitCode_of_emit written
  have tidy : Bound.TidyList True file.bind.1.statements := run.tidy (fun _ => listed) found paths
  have once : (Bound.introducesList file.bind.1.statements).Nodup := run.introduces.nodup
  obtain ⟨arguments, height, counted, safe⟩ :=
    Bound.Program.stackSafe_of_emitCode emitted tidy once
  rw [constants, bytes]
  exact ⟨_, arguments, height, Bound.Program.disassemble_of_emitCode emitted, counted, safe⟩

open Unplaced in
/-- A function that leaves its loop while a local is open, which another function captures:
`fun first(n: Int): Int { var k = n while (true) { val m = k if (m < 3 && 0 < m) break
{ fun get(): Int { return m } k = get() + 1 } } return k } print first(1)`. -/
def leavingFile : SourceFile :=
  source "leaving" [
    function "first" [("n", "Int")] "Int"
      [var "k" (use "n"),
      whileLoop (boolean true) [
        val "m" (use "k"),
        ifThen (binary .andAnd (binary .less (use "m") (int 3)) (binary .less (int 0) (use "m")))
          (.breakLoop default),
        block [function "get" [] "Int" [give (use "m")],
          assign "k" (binary .plus (call "get" []) (int 1))]],
      give (use "k")],
    print (call "first" [int 1])]

theorem leavingFile_stackSafe :
    leavingFile.DeclaresInLists ∧ ∃ image code arguments height,
      leavingFile.compile = .ok image ∧ Machine.disassemble image.code = .ok code ∧
        (Machine.callOffsets code).map arguments = [0, 1] ∧
          Machine.StackSafe code ((0, 0) :: image.constants.functions) arguments height := by
  have listed : leavingFile.DeclaresInLists := by decide +kernel
  have succeeds : leavingFile.compile.toOption.isSome = true := by decide +kernel
  have calls : Bound.callArgumentsOfList leavingFile.bind.1.statements = [0, 1] := by
    decide +kernel
  obtain ⟨image, compiled⟩ := ok_of_toOption_isSome succeeds
  obtain ⟨code, arguments, height, read, counted, safe⟩ :=
    SourceFile.stackSafe_of_compile listed compiled
  exact ⟨listed, image, code, arguments, height, compiled, read, counted.trans calls, safe⟩

end Bindery
