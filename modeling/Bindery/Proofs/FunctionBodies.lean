import Bindery.Proofs.Confinement
import Bindery.Proofs.Interning
import Bindery.Proofs.StackDiscipline
import Mathlib.Data.Set.Insert

/-!
Control stays inside functions.

Whatever a statement declares, and on whichever paths, its code is separated: control goes from
its start to its end, or leaves through a return, and never enters or leaves the body of a
function by itself (`Statement.Writes.separates`). A body cannot run past its end, because a file
without findings has a return on every path through it, or one is added to it
(`Statement.Tidy`). So the code of a compiled file keeps control apart
(`SourceFile.control_stays_in_functions`).
-/

namespace Bindery

/-! ### Entries of functions -/

def Emission.entries (e : Emission) : Set Nat := {a | ∃ arity, (a, arity) ∈ e.functions}

namespace Emission

variable {e e' : Emission}

/-- Functions stay in the pool. -/
theorem PoolGrows.functions (grows : e.PoolGrows e') : e.functions ⊆ e'.functions := by
  obtain ⟨cs, more⟩ := grows
  intro function mem
  obtain ⟨c, present, named⟩ := List.mem_filterMap.mp mem
  refine List.mem_filterMap.mpr ⟨c, ?_, named⟩
  rw [more]
  exact (e.constants.isPrefix_addAll cs).mem present

theorem entries_empty : Emission.empty.entries = ∅ :=
  Set.eq_empty_of_forall_notMem fun _ ⟨_, mem⟩ => List.not_mem_nil mem

theorem entries_eq (same : e'.functions = e.functions) : e'.entries = e.entries := by
  rw [entries, entries, same]

/-- The entry of a function is added with its constant. -/
theorem entries_constant {entry : UInt16} {arity : UInt8} {i : Machine.Instruction}
    (run : Emit.constant (.function entry arity) e = .ok (i, e')) :
    e'.entries = insert entry.toNat e.entries := by
  ext a
  constructor
  · rintro ⟨n, mem⟩
    rcases Emit.mem_functions_of_constant run mem with before | ⟨_, _, same, named⟩
    · exact .inr ⟨n, before⟩
    · cases same
      exact .inl (congrArg Prod.fst named)
  · rintro (rfl | ⟨n, mem⟩)
    · obtain ⟨_, _, added, _, rfl⟩ := Emit.constant_eq_ok run
      exact ⟨arity.toNat, List.mem_filterMap.mpr ⟨_, Machine.ConstantPool.mem_of_intern added, rfl⟩⟩
    · exact ⟨n, (PoolGrows.constant run).functions mem⟩

end Emission

end Bindery

namespace Bindery.Bound

open Emit (Code Fragment jumpSize)
open Emit.Fragment (Separated Silent WellFormed silent_append silent_cons silent_nil)
open Machine (Body)

/-- Expressions make no functions. -/
theorem Expression.Writes.entries {symbols : SymbolTable} {x : Expression} {e e' : Emission}
    {codes : List Code} (run : x.Writes symbols none e codes e') : e'.entries = e.entries :=
  Emission.entries_eq (run.functions.antisymm run.poolGrows.functions)

/-! ### Code that does not return -/

variable {e e' : Emission} {code : Code} {symbols : SymbolTable} {x : Expression}
    {codes : List Code} {start : Nat}

theorem silent_constant {c : Machine.Constant} {i : Machine.Instruction}
    (run : Emit.constant c e = .ok (i, e')) : Silent [.instruction i] := by
  obtain ⟨_, _, _, rfl, _⟩ := Emit.constant_eq_ok run
  exact .single rfl

theorem silent_discards (locals : List Storage.Local) :
    Silent (Code.toFragment (locals.map Storage.Local.discard)) := by
  induction locals with
  | nil => exact silent_nil
  | cons _ _ ih =>
    refine silent_cons.mpr ⟨?_, ih⟩
    unfold Storage.Local.discard
    split <;> rfl

/-- A declaration returns nowhere. -/
theorem silent_declare {s : SymbolId} {store : Code} (run : Emit.declare s e = .ok (store, e')) :
    Silent store.toFragment := by
  rcases Emit.declare_eq_ok run with ⟨_, _, _, _, rfl, _⟩ | ⟨_, _, _, rfl, _⟩
  · exact silent_cons.mpr ⟨rfl, .single rfl⟩
  · exact silent_nil

theorem silent_closure {captures : List Machine.Capture} (run : Emit.closure captures = .ok code) :
    Silent code.toFragment := by
  rcases Emit.closure_eq_ok run with ⟨_, rfl⟩ | ⟨_, rfl, _⟩
  · exact silent_nil
  · exact .single rfl

/-- Expressions do not return. -/
theorem Expression.Writes.silent {chain : Option BinaryOperation}
    (run : x.Writes symbols chain e codes e') : Silent (Code.toFragment codes.flatten) := by
  intro item mem
  obtain ⟨i, inside, rfl⟩ := List.mem_map.mp mem
  have evaluates := run.evaluates i inside
  cases leaves : i.opcode == .ret with
  | false => exact leaves
  | true =>
    rw [eq_of_beq leaves] at evaluates
    cases evaluates

/-! ### Returns of statements -/

mutual

/-- How many return statements belong to a statement and to no function declared in it. -/
def Statement.outerReturns : Statement → Nat
  | .ifThen _ yes _ => yes.outerReturns
  | .ifElse _ yes no _ => yes.outerReturns + no.outerReturns
  | .whileLoop _ body _ => body.outerReturns
  | .doWhile body .. => body.outerReturns
  | .block statements _ => outerReturnsOfList statements
  | .returns .. => 1
  | .function .. => 0
  | .declare .. => 0
  | .breakLoop _ => 0
  | .continueLoop _ => 0
  | .print .. => 0
  | .expression .. => 0

def outerReturnsOfList : List Statement → Nat
  | [] => 0
  | s :: rest => s.outerReturns + outerReturnsOfList rest

end

def entriesOf (bodies : List Body) : Set Nat := {a | ∃ b ∈ bodies, b.entry = a}

theorem entriesOf_nil : entriesOf [] = ∅ := by
  simp [entriesOf]

theorem entriesOf_cons (b : Body) (bodies : List Body) :
    entriesOf (b :: bodies) = insert b.entry (entriesOf bodies) := by
  ext a
  constructor
  · rintro ⟨b', mem, rfl⟩
    rcases List.mem_cons.mp mem with rfl | later
    · exact .inl rfl
    · exact .inr ⟨b', later, rfl⟩
  · rintro (rfl | ⟨b', mem, rfl⟩)
    · exact ⟨b, List.mem_cons_self, rfl⟩
    · exact ⟨b', List.mem_cons_of_mem _ mem, rfl⟩

theorem entriesOf_append (bodies bodies' : List Body) :
    entriesOf (bodies ++ bodies') = entriesOf bodies ∪ entriesOf bodies' := by
  ext a
  simp [entriesOf, or_and_right, exists_or]

/-! ### Parts of statements -/

/-- An expression, with something behind it that does not return either, is left at its end. -/
theorem Expression.Writes.separated_append (run : x.Writes symbols none e codes e') (start : Nat)
    (tail : Code) (wellFormed : WellFormed tail.toFragment) (silent : Silent tail.toFragment) :
    ∃ own, Separated start (Code.toFragment (codes.flatten ++ tail)) [] own
      {start + Fragment.size (Code.toFragment (codes.flatten ++ tail))} 0 := by
  refine ⟨_, .plain start ?_ ?_⟩
  · rw [Code.toFragment_append]
    exact run.wellFormed_flatten.append wellFormed
  · rw [Code.toFragment_append, silent_append]
    exact ⟨run.silent, silent⟩

/-- Control goes through an expression to its end. -/
theorem Expression.Writes.separated (run : x.Writes symbols none e codes e') (start : Nat) :
    ∃ own, Separated start (Code.toFragment codes.flatten) [] own
      {start + Fragment.size (Code.toFragment codes.flatten)} 0 :=
  ⟨_, .plain start run.wellFormed_flatten run.silent⟩

theorem separated_discards (start : Nat) (locals : List Storage.Local) :
    ∃ own, Separated start (Code.toFragment (locals.map Storage.Local.discard)) [] own
      {start + Fragment.size (Code.toFragment (locals.map Storage.Local.discard))} 0 :=
  ⟨_, .plain start (Emit.Fragment.wellFormed_discards locals) (silent_discards locals)⟩

/-- Nothing follows an exit. -/
theorem separated_leaveLoop (start : Nat) (locals : List Storage.Local) (x : Machine.LoopExit) :
    ∃ own, Separated start (Code.toFragment (locals.map Storage.Local.discard) ++ [.exit x]) []
      own ∅ 0 := by
  obtain ⟨own, removed⟩ := separated_discards start locals
  exact ⟨_, removed.finish (.exit _ x) rfl⟩

/-- Nothing follows a return. -/
theorem separated_return {own : Set Nat} (value : Code)
    (pushed : Separated start value.toFragment [] own {start + Fragment.size value.toFragment} 0) :
    ∃ own, Separated start (Code.toFragment (value ++ [.ret])) [] own ∅ 1 := by
  rw [Code.toFragment_append]
  exact ⟨_, pushed.follow (.ret _) rfl⟩

theorem separated_returnsUnit (start : Nat) :
    ∃ own, Separated start (Code.toFragment [.pushTrue, .ret]) [] own ∅ 1 :=
  separated_return [.pushTrue] (.plain start (.plain rfl) (.single rfl))

/-- The size of a branching statement, part by part. -/
theorem size_branch (start : Nat) (condition : Code) (yes no : Fragment) (skip leave : Int16) :
    start + Fragment.size (condition.toFragment ++ .instruction (.gotoDrop false skip) ::
      (yes ++ .instruction (.goto leave) :: no)) =
        start + condition.size + jumpSize + (Fragment.size yes + jumpSize) + Fragment.size no := by
  simp only [Emit.Fragment.size_append, Emit.Fragment.size_cons, Emit.Fragment.size_toFragment,
    Emit.Item.size, Emit.size_gotoDrop]
  change start + (_ + (_ + (_ + (jumpSize + _)))) = _
  omega

/-- The body of a function leaves no exit open. -/
theorem WritesList.exit_not_mem_ending {statements : List Statement} {code : Fragment}
    (run : WritesList symbols none start statements e code e') (insertReturn : Bool)
    (locals : List Storage.Local) (x : Machine.LoopExit) :
    .exit x ∉ code ++ (functionEnding insertReturn locals).toFragment := by
  simp [run.exit_not_mem (x := x)]

/-! ### Putting parts together -/

/-- The code is separated and has a body for each function that is new. -/
def Splits (start : Nat) (code : Fragment) (out : Set Nat) (returns : Nat) (e e' : Emission) :
    Prop :=
  ∃ bodies own, Separated start code bodies own out returns ∧
    e'.entries = e.entries ∪ entriesOf bodies

namespace Splits

variable {middle n m : Nat} {code code' : Fragment} {out : Set Nat} {e₁ e₂ : Emission}

variable {own : Set Nat} {ends : Prop}

/-- Code without functions. -/
theorem of_separated (h : Separated start code [] own out n) (same : e'.entries = e.entries) :
    Splits start code out n e e' := by
  refine ⟨[], own, h, ?_⟩
  rw [entriesOf_nil, Set.union_empty, same]

/-- Code that is never left at its end may be thought to be left anywhere. -/
theorem of_empty (h : Separated start code [] own ∅ n) (same : e'.entries = e.entries) :
    Splits start code out n e e' :=
  of_separated (h.tie (Set.empty_subset _)) same

/-- Two pieces of code one after the other. -/
theorem follow (left : Splits start code {middle} n e e₁)
    (right : Splits middle code' out m e₁ e') (follows : middle = start + Fragment.size code) :
    Splits start (code ++ code') out (n + m) e e' := by
  obtain ⟨bodies, own, separated, entries⟩ := left
  obtain ⟨bodies', own', separated', entries'⟩ := right
  refine ⟨bodies ++ bodies', _, separated.follow separated' follows, ?_⟩
  rw [entries', entries, entriesOf_append, Set.union_assoc]

/-- What is behind other code counts only if the end of that code is reached. -/
theorem finish {ends : Prop} {t : Nat} {own : Set Nat}
    (inner : ∀ out, ends ∨ start + Fragment.size code ∈ out → Splits start code out n e e')
    (rest : Separated (start + Fragment.size code) code' [] own {t} 0) (silent : Silent code')
    (leaves : ends ∨ t ∈ out) : Splits start (code ++ code') out n e e' := by
  rcases leaves with dead | known
  · obtain ⟨bodies, own, separated, entries⟩ := inner out (.inl dead)
    exact ⟨bodies, own, separated.dead silent, entries⟩
  · obtain ⟨bodies, own, separated, entries⟩ := inner {start + Fragment.size code} (.inr rfl)
    exact ⟨bodies, _, (separated.finish rest rfl).leave known, entries⟩

/-- The locals of a block are removed at its end, unless the end is not reached. -/
theorem leaveBlock (locals : List Storage.Local)
    (inner : ∀ out, ends ∨ start + Fragment.size code ∈ out → Splits start code out n e e')
    (leaves : ends ∨ start +
      Fragment.size (code ++ Code.toFragment (locals.map Storage.Local.discard)) ∈ out) :
    Splits start (code ++ Code.toFragment (locals.map Storage.Local.discard)) out n e e' := by
  obtain ⟨own, discards⟩ := separated_discards (start + Fragment.size code) locals
  rw [Emit.Fragment.size_append, ← Nat.add_assoc] at leaves
  exact finish inner discards (silent_discards locals) leaves

/-- A body ends in a return on every path. -/
theorem functionBody {insertReturn : Bool} (locals : List Storage.Local)
    (inner : ∀ out, ends ∨ start + Fragment.size code ∈ out → Splits start code out n e e')
    (complete : insertReturn = true ∨ ends) :
    ∃ n, Splits start (code ++ (functionEnding insertReturn locals).toFragment) ∅ n e e' := by
  cases insertReturn with
  | false =>
    have ends := complete.resolve_left Bool.false_ne_true
    exact ⟨n, leaveBlock locals inner (.inl ends)⟩
  | true =>
    change ∃ n, Splits start (code ++ Code.toFragment (_ ++ [.pushTrue, .ret])) ∅ n e e'
    rw [Code.toFragment_append, ← List.append_assoc]
    obtain ⟨own, returns⟩ := separated_returnsUnit _
    exact ⟨_, follow (leaveBlock locals inner (.inr rfl)) (.of_separated returns rfl) rfl⟩

/-- A function is written behind a jump over its code, and is then pushed as a value. -/
theorem function {arity : Nat} {captures : List Machine.Capture} {store : Code} {f : Fragment}
    (inner : Splits (start + jumpSize) f ∅ n e e₁) (closed : ∀ x, .exit x ∉ f)
    (wrapped : wrapFunction start arity captures f e₂ = .ok (code, e'))
    (same : e₂.entries = e₁.entries)
    (wellFormed : WellFormed store.toFragment) (silent : Silent store.toFragment) :
    Splits start (code ++ store.toFragment)
      {start + Fragment.size (code ++ store.toFragment)} 0 e e' := by
  obtain ⟨skip, entry, count, value, closure, past, entered, _, added, closing, rfl⟩ :=
    wrapFunction_eq_ok wrapped
  obtain ⟨bodies, own, separated, entries⟩ := inner
  have pushed : WellFormed (Code.toFragment (value :: closure) ++ store.toFragment) :=
    ((wellFormed_constant added).append (wellFormed_closure closing)).append wellFormed
  have quiet : Silent (Code.toFragment (value :: closure) ++ store.toFragment) :=
    silent_append.mpr ⟨silent_append.mpr ⟨silent_constant added, silent_closure closing⟩, silent⟩
  have whole := (separated.function closed rfl past).finish (.plain _ pushed quiet) (by
    rw [Emit.Fragment.size_cons, ← Nat.add_assoc]
    rfl)
  rw [List.cons_append, List.append_assoc]
  refine ⟨_, _, whole.leave ?_, ?_⟩
  · rw [Emit.Fragment.size_cons, Emit.Fragment.size_append f, ← Nat.add_assoc, ← Nat.add_assoc]
    rfl
  · rw [Emission.entries_constant added, same, entries, entriesOf_cons,
      Machine.toWord16_eq_ok entered, Set.union_insert]

/-- A condition with two ways to go on, the first of which ends in a jump over the second. -/
theorem branch {condition : Code} {yes no : Fragment} {skip leave : Int16} {tests : Set Nat}
    {ends : Prop} (test : Separated start condition.toFragment [] tests
      {start + Fragment.size condition.toFragment} 0)
    (first : ∀ out, ends ∨ start + condition.size + jumpSize + Fragment.size yes ∈ out →
      Splits (start + condition.size + jumpSize) yes out n e e₁)
    (past : skip.toInt = (Fragment.size yes + jumpSize : Nat))
    (follows : middle = start + condition.size + jumpSize + (Fragment.size yes + jumpSize))
    (second : Splits middle no out m e₁ e') (onward : leave.toInt = Fragment.size no)
    (leaves : ends ∨ middle + Fragment.size no ∈ out) :
    Splits start (condition.toFragment ++ .instruction (.gotoDrop false skip) ::
      (yes ++ .instruction (.goto leave) :: no)) out (n + m) e e' := by
  have jump : Separated (start + condition.size + jumpSize + Fragment.size yes)
      [.instruction (.goto leave)] [] _ {middle + Fragment.size no} 0 :=
    .goto (by push_cast; omega)
  have jumps : Fragment.size (yes ++ [.instruction (.goto leave)]) =
      Fragment.size yes + jumpSize := by
    rw [Emit.Fragment.size_append]
    rfl
  obtain ⟨bodies, own, way, entries⟩ := finish first jump (.single rfl) leaves
  obtain ⟨bodies', own', way', entries'⟩ := second
  obtain ⟨own'', whole⟩ := test.branch way (by rw [Emit.Fragment.size_toFragment])
    (by rw [past, jumps]) way' (by rw [follows, jumps])
  exact ⟨_, _, whole, by rw [entries', entries, entriesOf_append, Set.union_assoc]⟩

end Splits

/-! ### Statements -/

variable {listed : Prop}

mutual

/-- From its start, a statement leads to its end, unless it ends; what it declares lies in bodies
of its own. -/
theorem Statement.Writes.separates {s : Statement} {loop start e e' code} :
    s.Writes symbols loop start e code e' → s.Tidy listed →
    ∀ out : Set Nat, s.Ends ∨ start + Fragment.size code ∈ out →
      Splits start code out s.outerReturns e e'
  | .function declared put body wrapped, .function inner inserted, _, leaves => by
    obtain ends | known := leaves
    · cases ends
    have complete := or_iff_not_imp_right.mpr inserted.mpr
    obtain ⟨n, round⟩ := Splits.functionBody _ (body.separates inner) complete
    obtain ⟨bodies, own, whole, entries⟩ := round.function (body.exit_not_mem_ending _ _)
      wrapped rfl (wellFormed_declare declared) (silent_declare declared)
    have entered := Emission.entries_eq (functions_enterFunction declared put)
    exact ⟨bodies, own, whole.leave known, entries.trans (congrArg (· ∪ _) entered)⟩
  | .declare value declared, _, _, leaves => by
    obtain ends | known := leaves
    · cases ends
    obtain ⟨own, stored⟩ := value.separated_append start _ (wellFormed_declare declared)
      (silent_declare declared)
    refine .of_separated (stored.leave known) ?_
    rw [Emission.entries_eq (Emit.declare_functions declared), value.entries]
  | .ifThen condition yes past, .ifThen inner _, _, leaves => by
    obtain ends | known := leaves
    · cases ends
    obtain ⟨tests, test⟩ := condition.separated start
    obtain ⟨bodies, own, way, entries⟩ := yes.separates inner {_} (.inr rfl)
    obtain ⟨own', whole⟩ := test.skip way (by rw [Emit.Fragment.size_toFragment])
      (Machine.toDistance_eq_ok past)
    exact ⟨bodies, own', whole.leave known, by rw [entries, condition.entries]⟩
  | .ifElse condition yes past no onward, .ifElse one _ two _, out, leaves => by
    obtain ⟨tests, test⟩ := condition.separated start
    rw [size_branch] at leaves
    have second := no.separates two out (leaves.imp_left fun | .ifElse _ last => last)
    obtain ⟨bodies, own, whole, entries⟩ := Splits.branch test (yes.separates one)
      (Machine.toDistance_eq_ok past) rfl second (Machine.toDistance_eq_ok onward)
      (leaves.imp_left fun | .ifElse first _ => first)
    exact ⟨bodies, own, whole, by rw [entries, condition.entries]⟩
  | .whileLoop condition body run, .whileLoop inner _, _, leaves => by
    obtain ends | known := leaves
    · cases ends
    obtain ⟨tests, test⟩ := condition.separated start
    obtain ⟨bodies, own, round, entries⟩ := body.separates inner {_} (.inr rfl)
    rw [Emit.Fragment.size_toFragment] at test
    obtain ⟨own', whole⟩ := test.whileLoop round rfl run
    exact ⟨bodies, own', whole.leave known, by rw [entries, condition.entries]⟩
  | .doWhile body condition run, .doWhile inner _, _, leaves => by
    obtain ends | known := leaves
    · cases ends
    obtain ⟨bodies, own, round, entries⟩ := body.separates inner {_} (.inr rfl)
    obtain ⟨tests, test⟩ := condition.separated _
    rw [Emit.Fragment.size_toFragment] at test
    obtain ⟨own', whole⟩ := round.doWhile rfl test run
    exact ⟨bodies, own', whole.leave known, by rw [condition.entries, entries]⟩
  | .block statements, .block inner, _, leaves => by
    refine Splits.leaveBlock _ (statements.separates inner) (leaves.imp_left ?_)
    rintro (_ | _ | _ | _ | ⟨mem, ends⟩)
    exact ⟨_, mem, ends⟩
  | .returnsUnit, _, _, _ => by
    obtain ⟨own, returns⟩ := separated_returnsUnit start
    exact .of_empty returns rfl
  | .returns value, _, _, _ => by
    obtain ⟨own, pushed⟩ := value.separated start
    obtain ⟨own', returns⟩ := separated_return _ pushed
    exact .of_empty returns value.entries
  | .breakLoop, _, _, _ => by
    obtain ⟨own, leaves⟩ := separated_leaveLoop start _ .breaks
    exact .of_empty leaves rfl
  | .continueLoop, _, _, _ => by
    obtain ⟨own, leaves⟩ := separated_leaveLoop start _ .continues
    exact .of_empty leaves rfl
  | .print value, _, _, leaves => by
    obtain ends | known := leaves
    · cases ends
    obtain ⟨own, printed⟩ := value.separated_append start [.print] (.plain rfl) (.single rfl)
    exact .of_separated (printed.leave known) value.entries
  | .expression value, _, _, leaves => by
    obtain ends | known := leaves
    · cases ends
    obtain ⟨own, dropped⟩ := value.separated_append start [.pop] (.plain rfl) (.single rfl)
    exact .of_separated (dropped.leave known) value.entries

theorem WritesList.separates {statements loop start e e' code} :
    WritesList symbols loop start statements e code e' → TidyList listed statements →
      ∀ out : Set Nat, EndsList statements ∨ start + Fragment.size code ∈ out →
        Splits start code out (outerReturnsOfList statements) e e'
  | .nil, _, _, leaves => by
    obtain ends | known := leaves
    · exact absurd ends not_endsList_nil
    exact .of_separated ((Separated.nil start).leave known) rfl
  | .cons (s := s) first others, .cons one nothing rest, out, leaves => by
    by_cases ends : s.Ends
    · obtain rfl := nothing ends
      cases others
      rw [List.append_nil]
      exact first.separates one out (.inl ends)
    · rw [Emit.Fragment.size_append, ← Nat.add_assoc, endsList_cons, or_iff_right ends] at leaves
      exact (first.separates one {_} (.inr rfl)).follow (others.separates rest out leaves) rfl

end

/-! ### Programs -/

/-- The code of a tidy program keeps control apart. -/
theorem Program.keepsApart_of_emitCode {p : Program} {listed : Prop}
    (run : p.emitCode = .ok (code, e)) (tidy : TidyList listed p.statements) :
    Machine.KeepsApart (Machine.locate 0 code) e.constants.functions
      (outerReturnsOfList p.statements) := by
  obtain ⟨f, rfl, statements⟩ := Program.writes_of_emitCode run
  obtain ⟨bodies, own, separated, entries⟩ := statements.separates tidy {_} (.inr rfl)
  have text : f ++ [.instruction .halt] = Code.toFragment (f.toCode ++ [.halt]) := by
    rw [Code.toFragment_append, Emit.Fragment.toFragment_toCode fun x => statements.exit_not_mem]
    rfl
  have whole := separated.finish (.halt _) rfl
  rw [text] at whole
  rw [Emission.entries_empty, Set.empty_union] at entries
  refine whole.keepsApart (fun a => Set.ext_iff.mp entries a) fun l mem halts => ?_
  -- The only end of the program stands behind all of its statements.
  have placed := Fragment.mem_locate_toFragment.mpr mem
  rw [← text, Emit.Fragment.locate_append] at placed
  rcases List.mem_append.mp placed with inside | last
  · have admissible := statements.wellFormed.admissible _ (Emit.Fragment.mem_of_mem_locate inside)
    exact absurd halts admissible.1
  · refine separated.outside_of_far (.inr (Nat.le_of_eq ?_))
    exact (congrArg Prod.fst (List.mem_singleton.mp last)).symm

end Bindery.Bound

namespace Bindery

/-- Control does not cross the borders of functions in a compiled file. From the entry of a
function every path stays in the function's own code until it returns, so no body is left at its
end. From the start of the program every path stays outside all functions until the program ends
or returns, and the code outside functions returns once for each return statement there. -/
theorem SourceFile.control_stays_in_functions {file : SourceFile} {image : Machine.Image}
    (compiled : file.compile = .ok image) :
    ∃ code, Machine.disassemble image.code = .ok code ∧
      Machine.KeepsApart code image.constants.functions
        (Bound.outerReturnsOfList file.bind.1.statements) := by
  obtain ⟨clean, written⟩ := emit_of_compile compiled
  obtain ⟨b, run, _, found, paths⟩ := binds_of_clean clean
  obtain ⟨code, e, emitted, constants, bytes⟩ := Bound.Program.emitCode_of_emit written
  rw [constants, bytes]
  exact ⟨_, Bound.Program.disassemble_of_emitCode emitted,
    Bound.Program.keepsApart_of_emitCode emitted (run.tidy False.elim found paths)⟩

open Unplaced in
/-- A function in a function, a loop that is left by a return and by a jump, and a return of the
program itself: `fun outer(n: Int): Int { fun inner(): Int { return n } while (0 < n) if (n < 3)
return inner() else break return 0 } if (outer(1) < 2) return print outer(2)`. The local `inner`
is removed behind the last return, where no path leads. -/
def returningFile : SourceFile :=
  source "returning" [
    function "outer" [("n", "Int")] "Int"
      [function "inner" [] "Int" [give (use "n")],
      .whileLoop (binary .less (int 0) (use "n"))
        (.ifElse (binary .less (use "n") (int 3)) (give (call "inner" [])) (.breakLoop default)
          default) default,
      give (int 0)],
    ifThen (binary .less (call "outer" [int 1]) (int 2)) (.returns none default),
    print (call "outer" [int 2])]

/-- The code returns once outside its two functions. -/
theorem returningFile_keepsApart :
    ∃ image code, returningFile.compile = .ok image ∧ Machine.disassemble image.code = .ok code ∧
      Machine.functionBodies code image.constants.functions = [⟨3, 58⟩, ⟨6, 10⟩] ∧
        Machine.KeepsApart code image.constants.functions 1 := by
  have bodies : (returningFile.compile.toOption.bind fun image =>
      (Machine.disassemble image.code).toOption.map fun code =>
        Machine.functionBodies code image.constants.functions) = some [⟨3, 58⟩, ⟨6, 10⟩] := by
    decide +kernel
  have returns : Bound.outerReturnsOfList returningFile.bind.1.statements = 1 := by
    decide +kernel
  obtain ⟨image, compiled, bodies⟩ := ok_of_toOption_bind bodies
  obtain ⟨code, read, apart⟩ := SourceFile.control_stays_in_functions compiled
  rw [read] at bodies
  rw [returns] at apart
  exact ⟨image, code, compiled, read, Option.some.inj bodies, apart⟩

end Bindery
