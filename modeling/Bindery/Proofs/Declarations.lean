import Bindery.Proofs.Paths
import Bindery.Proofs.Scoping
import Bindery.Proofs.Tidy
import Bindery.Tree.Unplaced

/-!
Declarations come before uses.

On every path through the code of one function, a symbol that this code declares is used only
after the path has executed its declaration or has gone past it (`Statement.Runs.settles`).
The second can only happen to a declaration that is itself a branch or the body of a loop:
there its name is known behind the statement although no path has to run it
(`leakingFile_undeclared`). Where declarations stand in statement lists, no path goes past one,
so every use follows the declaration (`SourceFile.declared_before_use`).
-/

namespace Bindery.Bound

theorem append_subset_append {a b c d : List SymbolId} (first : a ⊆ c) (second : b ⊆ d) :
    a ++ b ⊆ c ++ d :=
  List.append_subset.mpr ⟨List.subset_append_of_subset_left _ first,
    List.subset_append_of_subset_right _ second⟩

/-! ### Uses along a path -/

/-- The symbols whose declaration a path has executed or gone past. -/
def settled (events : List Event) : List SymbolId :=
  events.filterMap fun
    | .use _ => none
    | .declare s => some s
    | .skip s => some s

/-- A symbol is settled by its declaration or by going past it. -/
theorem mem_settled {events : List Event} {s : SymbolId} :
    s ∈ settled events ↔ .declare s ∈ events ∨ .skip s ∈ events := by
  simp only [settled, List.mem_filterMap]
  constructor
  · rintro ⟨event, mem, found⟩
    cases event with
    | use => cases found
    | declare =>
      cases found
      exact .inl mem
    | skip =>
      cases found
      exact .inr mem
  · rintro (mem | mem)
    · exact ⟨_, mem, rfl⟩
    · exact ⟨_, mem, rfl⟩

@[simp] theorem settled_append (first second : List Event) :
    settled (first ++ second) = settled first ++ settled second := List.filterMap_append

@[simp] theorem settled_skips (ids : List SymbolId) : settled (ids.map .skip) = ids := by
  induction ids with
  | nil => rfl
  | cons s _ ih =>
    rw [List.map_cons]
    exact congrArg (s :: ·) ih

/-- Every symbol that is used is ready, or settled before. -/
def UsesSettled (ready : List SymbolId) (events : List Event) : Prop :=
  ∀ before s after, events = before ++ .use s :: after → s ∈ settled before ∨ s ∈ ready

namespace UsesSettled

variable {ready ready' : List SymbolId} {first second events : List Event}

theorem of_no_use (none : ∀ s, .use s ∉ events) : UsesSettled ready events := by
  rintro before s after rfl
  exact absurd (List.mem_append_right _ List.mem_cons_self) (none s)

/-- More may have been settled before. -/
theorem mono (h : UsesSettled ready events) (sub : ready ⊆ ready') : UsesSettled ready' events := by
  intro before s after split
  exact (h before s after split).imp_right fun mem => sub mem

/-- What the first part settles is ready in the second. -/
theorem append (left : UsesSettled ready first)
    (right : UsesSettled (settled first ++ ready) second) :
    UsesSettled ready (first ++ second) := by
  intro before s after split
  rcases List.append_eq_append_iff.mp split with ⟨middle, rfl, behind⟩ | ⟨middle, rfl, behind⟩
  · rw [settled_append, List.mem_append]
    rcases right middle s after behind with inside | ready
    · exact .inl (.inr inside)
    · rcases List.mem_append.mp ready with earlier | ready
      · exact .inl (.inl earlier)
      · exact .inr ready
  · cases middle with
    | nil =>
      rw [List.append_nil] at right
      rcases right [] s after behind.symm with inside | ready
      · cases inside
      · exact List.mem_append.mp ready
    | cons _ middle =>
      cases behind
      exact left before s middle rfl

end UsesSettled

variable {known : List SymbolId}

mutual

/-- An expression does nothing but use symbols that are known. -/
theorem Expression.Evaluates.uses {x : Expression} {events : List Event} :
    x.Evaluates events → x.InScope known → ∀ event ∈ events, ∃ s ∈ known, event = .use s
  | .literal, _ | .error, _ => fun _ mem => nomatch mem
  | .reference, scope => by
    intro event mem
    exact ⟨_, scope, List.mem_singleton.mp mem⟩
  | .assignment value, scope => by
    intro event mem
    rcases List.mem_append.mp mem with inside | last
    · exact value.uses scope.2 event inside
    · exact ⟨_, scope.1, List.mem_singleton.mp last⟩
  | .binary _ left right, scope => by
    intro event mem
    rcases List.mem_append.mp mem with first | second
    · exact left.uses scope.1 event first
    · exact right.uses scope.2 event second
  | .shortCircuit _ left, scope => left.uses scope.1
  | .concat right left, scope => by
    intro event mem
    rcases List.mem_append.mp mem with first | second
    · exact right.uses scope.2 event first
    · exact left.uses scope.1 event second
  | .unary operand, scope => operand.uses scope
  | .parenthesized inner, scope => inner.uses scope
  | .call arguments target, scope => by
    intro event mem
    rcases List.mem_append.mp mem with first | second
    · exact arguments.uses scope.2 event first
    · exact target.uses scope.1 event second
  | .ternaryYes condition yes, scope => by
    intro event mem
    rcases List.mem_append.mp mem with first | second
    · exact condition.uses scope.1 event first
    · exact yes.uses scope.2.1 event second
  | .ternaryNo condition no, scope => by
    intro event mem
    rcases List.mem_append.mp mem with first | second
    · exact condition.uses scope.1 event first
    · exact no.uses scope.2.2 event second

theorem EvaluatesAll.uses {arguments events} :
    EvaluatesAll arguments events →
      ArgumentsInScope known arguments → ∀ event ∈ events, ∃ s ∈ known, event = .use s
  | .nil, _ => fun _ mem => nomatch mem
  | .cons first others, scope => by
    intro event mem
    rcases List.mem_append.mp mem with here | behind
    · exact first.uses scope.1 event here
    · exact others.uses scope.2 event behind

end

namespace Expression.Evaluates

variable {x : Expression} {events : List Event} {known ready : List SymbolId}

/-- An expression uses what is in scope. -/
theorem usesSettled (run : x.Evaluates events) (scope : x.InScope known) (sub : known ⊆ ready) :
    UsesSettled ready events := by
  rintro before s after rfl
  obtain ⟨t, mem, same⟩ := run.uses scope _ (List.mem_append_right _ List.mem_cons_self)
  cases same
  exact .inr (sub mem)

/-- Whatever follows an expression finds what was ready before it. -/
theorem append {rest : List Event} (run : x.Evaluates events) (scope : x.InScope known)
    (sub : known ⊆ ready) (behind : UsesSettled ready rest) : UsesSettled ready (events ++ rest) :=
  (run.usesSettled scope sub).append (behind.mono (List.subset_append_right _ _))

/-- Going past declarations uses nothing. -/
theorem passing (run : x.Evaluates events) (scope : x.InScope known) (sub : known ⊆ ready)
    (ids : List SymbolId) : UsesSettled ready (events ++ ids.map .skip) :=
  run.append scope sub (.of_no_use (by simp))

end Expression.Evaluates

/-! ### Statements -/

/-- A path through a statement executes or goes past every declaration of the statement. -/
theorem Statement.Runs.settles_declares {s : Statement} {events : List Event} {out : Outcome} :
    s.Runs events out → s.declares ⊆ settled events
  | .function => List.Subset.refl _
  | .declare _ => by
    rw [settled_append]
    exact List.subset_append_right _ _
  | .ifThenTaken _ yes => by
    rw [settled_append]
    exact List.subset_append_of_subset_right _ yes.settles_declares
  | .ifThenPassed _ | .whilePassed _ => by
    rw [settled_append, settled_skips]
    exact List.subset_append_right _ _
  | .ifElseYes _ yes => by
    rw [settled_append, settled_append, settled_skips]
    have inside := yes.settles_declares
    intro k mem
    rcases List.mem_append.mp mem with first | second
    · exact List.mem_append_right _ (inside first)
    · exact List.mem_append_left _ (List.mem_append_right _ second)
  | .ifElseNo _ no => by
    rw [settled_append, settled_append, settled_skips]
    have inside := no.settles_declares
    intro k mem
    rcases List.mem_append.mp mem with first | second
    · exact List.mem_append_left _ (List.mem_append_right _ first)
    · exact List.mem_append_right _ (inside second)
  | .whileRepeated _ body .. => by
    rw [settled_append, settled_append]
    have inside := body.settles_declares
    intro k mem
    exact List.mem_append_left _ (List.mem_append_right _ (inside mem))
  | .whileBroken _ body | .whileReturned _ body => by
    rw [settled_append]
    exact List.subset_append_of_subset_right _ body.settles_declares
  | .doPassed body .. => by
    rw [settled_append]
    exact List.subset_append_of_subset_left _ body.settles_declares
  | .doRepeated body .. => by
    rw [settled_append, settled_append]
    have inside := body.settles_declares
    intro k mem
    exact List.mem_append_left _ (List.mem_append_left _ (inside mem))
  | .doBroken body | .doReturned body => body.settles_declares
  | .block _ | .returnsUnit | .returns _ | .breakLoop | .continueLoop | .print _
  | .expression _ => List.nil_subset _

mutual

/-- Along a path through a statement that is in scope, every symbol that is used is known
before the statement, or its declaration was executed or passed on the way. -/
theorem Statement.Runs.settles {s : Statement} {known ready events out inLoop} :
    s.Runs events out → s.InScope inLoop known → known ⊆ ready → UsesSettled ready events
  | .function, _, _ => .of_no_use (by simp)
  | .declare value, scope, sub => value.append scope sub (.of_no_use (by simp))
  | .ifThenTaken test yes, scope, sub => test.append scope.1 sub (yes.settles scope.2 sub)
  | .ifThenPassed test, scope, sub | .whilePassed test, scope, sub => test.passing scope.1 sub _
  | .ifElseYes test yes, scope, sub => by
    refine (test.passing scope.1 sub _).append (yes.settles scope.2.1 ?_)
    exact List.subset_append_of_subset_right _ sub
  | .ifElseNo test no, scope, sub => by
    refine (test.passing scope.1 sub _).append (no.settles scope.2.2 ?_)
    -- The second branch knows what the first one declares, and the path has gone past it.
    rw [settled_append, settled_skips, List.append_assoc]
    refine List.subset_append_of_subset_right _ ?_
    exact append_subset_append (List.Subset.refl _) sub
  | .whileRepeated test body _ rest, scope, sub => by
    have once := test.append scope.1 sub (body.settles scope.2 sub)
    exact once.append (rest.settles scope (List.subset_append_of_subset_right _ sub))
  | .whileBroken test body, scope, sub | .whileReturned test body, scope, sub =>
    test.append scope.1 sub (body.settles scope.2 sub)
  | .doPassed body _ test, scope, sub => by
    refine (body.settles scope.1 sub).append (test.usesSettled scope.2 ?_)
    exact append_subset_append body.settles_declares sub
  | .doRepeated body _ test rest, scope, sub => by
    have tested := test.usesSettled scope.2 (append_subset_append body.settles_declares sub)
    have once := (body.settles scope.1 sub).append tested
    exact once.append (rest.settles scope (List.subset_append_of_subset_right _ sub))
  | .doBroken body, scope, sub | .doReturned body, scope, sub => body.settles scope.1 sub
  | .block statements, scope, sub => statements.settles scope sub
  | .returnsUnit, _, _ | .breakLoop, _, _ | .continueLoop, _, _ => .of_no_use (by simp)
  | .returns value, scope, sub | .print value, scope, sub
  | .expression value, scope, sub => value.usesSettled scope sub

theorem RunsList.settles {known ready statements events out inLoop} :
    RunsList statements events out → ListInScope inLoop known statements → known ⊆ ready →
      UsesSettled ready events
  | .nil, _, _ => .of_no_use (by simp)
  | .next first rest, scope, sub => by
    refine (first.settles scope.1 sub).append (rest.settles scope.2 ?_)
    exact append_subset_append first.settles_declares sub
  | .stop first _, scope, sub => first.settles scope.1 sub

end

/-! ### Bodies -/

mutual

def Statement.bodies : Statement → List (List Statement)
  | .function _ _ body .. => body :: bodiesOfList body
  | .ifThen _ yes _ => yes.bodies
  | .ifElse _ yes no _ => yes.bodies ++ no.bodies
  | .whileLoop _ body _ => body.bodies
  | .doWhile body .. => body.bodies
  | .block statements _ => bodiesOfList statements
  | .declare .. => []
  | .returns .. => []
  | .breakLoop _ => []
  | .continueLoop _ => []
  | .print .. => []
  | .expression .. => []

def bodiesOfList : List Statement → List (List Statement)
  | [] => []
  | s :: rest => s.bodies ++ bodiesOfList rest

end

/-- The code outside all functions, and the body of every function. -/
def Program.bodies (p : Program) : List (List Statement) :=
  p.statements :: bodiesOfList p.statements

mutual

/-- The symbols that the variable and function statements in a statement declare, those inside
functions apart. -/
def Statement.ownSymbols : Statement → List SymbolId
  | .function f .. => [f]
  | .declare s .. => [s]
  | .ifThen _ yes _ => yes.ownSymbols
  | .ifElse _ yes no _ => yes.ownSymbols ++ no.ownSymbols
  | .whileLoop _ body _ => body.ownSymbols
  | .doWhile body .. => body.ownSymbols
  | .block statements _ => ownSymbolsOfList statements
  | .returns .. => []
  | .breakLoop _ => []
  | .continueLoop _ => []
  | .print .. => []
  | .expression .. => []

def ownSymbolsOfList : List Statement → List SymbolId
  | [] => []
  | s :: rest => s.ownSymbols ++ ownSymbolsOfList rest

end

mutual

/-- What the code of a function declares itself is part of what it introduces. -/
theorem Statement.ownSymbols_subset : ∀ s : Statement, s.ownSymbols ⊆ s.introduces
  | .function .. => by simp [Statement.ownSymbols, Statement.introduces]
  | .declare .. => List.Subset.refl _
  | .ifThen _ yes _ => yes.ownSymbols_subset
  | .ifElse _ yes no _ => append_subset_append yes.ownSymbols_subset no.ownSymbols_subset
  | .whileLoop _ body _ => body.ownSymbols_subset
  | .doWhile body .. => body.ownSymbols_subset
  | .block statements _ => ownSymbolsOfList_subset statements
  | .returns .. | .breakLoop _ | .continueLoop _ | .print .. | .expression .. => List.nil_subset _

theorem ownSymbolsOfList_subset :
    ∀ statements : List Statement, ownSymbolsOfList statements ⊆ introducesList statements
  | [] => List.nil_subset _
  | s :: rest => append_subset_append s.ownSymbols_subset (ownSymbolsOfList_subset rest)

end

/-- What is known does not include what is introduced, and nothing is introduced twice. -/
structure Fresh (known ids : List SymbolId) : Prop where
  disjoint : ∀ k ∈ known, k ∉ ids
  nodup : ids.Nodup

namespace Fresh

variable {known first second : List SymbolId}

/-- A part of fresh symbols is fresh. -/
theorem left (h : Fresh known (first ++ second)) : Fresh known first :=
  ⟨fun k mem inside => h.disjoint k mem (List.mem_append_left _ inside),
    (List.nodup_append.mp h.nodup).1⟩

/-- What comes first is known to the rest. -/
theorem right {declared : List SymbolId} (h : Fresh known (first ++ second))
    (sub : declared ⊆ first) : Fresh (declared ++ known) second := by
  obtain ⟨_, rest, apart⟩ := List.nodup_append.mp h.nodup
  refine ⟨?_, rest⟩
  intro k mem inside
  rcases List.mem_append.mp mem with here | before
  · exact apart k (sub here) k inside rfl
  · exact h.disjoint k before (List.mem_append_right _ inside)

end Fresh

mutual

/-- The body of every function is in scope with symbols of which it declares none. -/
theorem Statement.exists_known {body : List Statement} :
    ∀ {s : Statement} {inLoop : Bool} {known : List SymbolId}, s.InScope inLoop known →
      Fresh known s.introduces → body ∈ s.bodies →
        ∃ known', ListInScope false known' body ∧ Fresh known' (introducesList body)
  | .function f parameters inner .., _, known, scope, fresh, mem => by
    have split : parameters ++ f :: introducesList inner =
        (parameters ++ [f]) ++ introducesList inner := by simp
    have same : parameters ++ f :: known = (parameters ++ [f]) ++ known := by simp
    rw [Statement.introduces, split] at fresh
    have inside := fresh.right (List.Subset.refl _)
    rw [← same] at inside
    rcases List.mem_cons.mp mem with rfl | deeper
    · exact ⟨_, scope, inside⟩
    · exact exists_known_of_list scope inside deeper
  | .ifThen .., _, _, scope, fresh, mem | .whileLoop .., _, _, scope, fresh, mem =>
    Statement.exists_known scope.2 fresh mem
  | .ifElse _ yes .., _, _, scope, fresh, mem => by
    rcases List.mem_append.mp mem with first | second
    · exact Statement.exists_known scope.2.1 fresh.left first
    · have sub : yes.declares ⊆ yes.introduces := fun _ => Statement.mem_introduces_of_mem_declares
      exact Statement.exists_known scope.2.2 (fresh.right sub) second
  | .doWhile .., _, _, scope, fresh, mem => Statement.exists_known scope.1 fresh mem
  | .block .., _, _, scope, fresh, mem => exists_known_of_list scope fresh mem

theorem exists_known_of_list {body : List Statement} :
    ∀ {statements : List Statement} {inLoop : Bool} {known : List SymbolId},
      ListInScope inLoop known statements → Fresh known (introducesList statements) →
        body ∈ bodiesOfList statements →
          ∃ known', ListInScope false known' body ∧ Fresh known' (introducesList body)
  | s :: _, _, _, scope, fresh, mem => by
    rcases List.mem_append.mp mem with first | others
    · exact Statement.exists_known scope.1 fresh.left first
    · have sub : s.declares ⊆ s.introduces := fun _ => Statement.mem_introduces_of_mem_declares
      exact exists_known_of_list scope.2 (fresh.right sub) others

end

/-! ### Declarations in statement lists -/

mutual

/-- Where declarations stand in lists, they do so in all functions. -/
theorem Statement.Tidy.of_mem_bodies {body : List Statement} {s : Statement} :
    s.Tidy True → body ∈ s.bodies → TidyList True body
  | .function inner _, mem => by
    rcases List.mem_cons.mp mem with rfl | deeper
    · exact inner
    · exact inner.of_mem_bodies deeper
  | .ifThen yes _, mem => yes.of_mem_bodies mem
  | .ifElse yes _ no _, mem => by
    rcases List.mem_append.mp mem with first | second
    · exact yes.of_mem_bodies first
    · exact no.of_mem_bodies second
  | .whileLoop inner _, mem => inner.of_mem_bodies mem
  | .doWhile inner _, mem => inner.of_mem_bodies mem
  | .block statements, mem => statements.of_mem_bodies mem

theorem TidyList.of_mem_bodies {body statements} :
    TidyList True statements → body ∈ bodiesOfList statements → TidyList True body
  | .cons first _ others, mem => by
    rcases List.mem_append.mp mem with here | behind
    · exact first.of_mem_bodies here
    · exact others.of_mem_bodies behind

end

/-- An expression goes past no declaration. -/
theorem Expression.Evaluates.not_skip {x : Expression} {events : List Event} {known : List SymbolId}
    (run : x.Evaluates events) (scope : x.InScope known) (k : SymbolId) : .skip k ∉ events := by
  intro mem
  obtain ⟨_, _, same⟩ := run.uses scope _ mem
  cases same

mutual

/-- Where branches and bodies of loops declare nothing, no path goes past a declaration. -/
theorem Statement.Runs.not_skip {s : Statement} {known k events out inLoop} :
    s.Runs events out → s.InScope inLoop known → s.Tidy True → .skip k ∉ events
  | .function, _, _ => by simp
  | .declare value, scope, _ => by simp [value.not_skip scope]
  | .ifThenTaken test yes, scope, .ifThen tidy _ => by
    simp [test.not_skip scope.1, yes.not_skip scope.2 tidy]
  | .ifThenPassed test, scope, .ifThen _ bare | .whilePassed test, scope, .whileLoop _ bare => by
    simp [test.not_skip scope.1, bare]
  | .ifElseYes test yes, scope, .ifElse tidy _ _ bare => by
    simp [test.not_skip scope.1, yes.not_skip scope.2.1 tidy, bare]
  | .ifElseNo test no, scope, .ifElse _ bare tidy _ => by
    simp [test.not_skip scope.1, no.not_skip scope.2.2 tidy, bare]
  | .whileRepeated test body _ rest, scope, .whileLoop tidy bare => by
    have behind := rest.not_skip (k := k) scope (.whileLoop tidy bare)
    simp [test.not_skip scope.1, body.not_skip scope.2 tidy, behind]
  | .whileBroken test body, scope, .whileLoop tidy _
  | .whileReturned test body, scope, .whileLoop tidy _ => by
    simp [test.not_skip scope.1, body.not_skip scope.2 tidy]
  | .doPassed body _ test, scope, .doWhile tidy _ => by
    simp [body.not_skip scope.1 tidy, test.not_skip scope.2]
  | .doRepeated body _ test rest, scope, .doWhile tidy bare => by
    have behind := rest.not_skip (k := k) scope (.doWhile tidy bare)
    simp [body.not_skip scope.1 tidy, test.not_skip scope.2, behind]
  | .doBroken body, scope, .doWhile tidy _
  | .doReturned body, scope, .doWhile tidy _ => body.not_skip scope.1 tidy
  | .block statements, scope, .block tidy => statements.not_skip scope tidy
  | .returnsUnit, _, _ | .breakLoop, _, _ | .continueLoop, _, _ => by simp
  | .returns value, scope, _ | .print value, scope, _
  | .expression value, scope, _ => value.not_skip scope k

theorem RunsList.not_skip {known k statements events out inLoop} :
    RunsList statements events out → ListInScope inLoop known statements →
      TidyList True statements → .skip k ∉ events
  | .nil, _, _ => by simp
  | .next first rest, scope, .cons tidy _ others => by
    have behind := rest.not_skip (k := k) scope.2 others
    simp [first.not_skip scope.1 tidy, behind]
  | .stop first _, scope, .cons tidy .. => first.not_skip scope.1 tidy

end

end Bindery.Bound

namespace Bindery

open Bindery.Bound (RunsList ListInScope Fresh introducesList ownSymbolsOfList)

/-- In what is bound without findings, every body is in scope with symbols of which it declares
none. -/
theorem SourceFile.exists_known_of_clean {file : SourceFile} (clean : file.bind.2 = [])
    {body : List Bound.Statement} (mem : body ∈ file.bind.1.bodies) :
    ∃ known, ListInScope false known body ∧ Fresh known (introducesList body) := by
  obtain ⟨b, run, _, found, _⟩ := binds_of_clean clean
  have scope : ListInScope false [] file.bind.1.statements :=
    run.inScope found fun name id seen => nomatch seen
  have fresh : Fresh [] (introducesList file.bind.1.statements) :=
    ⟨fun _ mem => absurd mem List.not_mem_nil, run.introduces.nodup⟩
  rcases List.mem_cons.mp mem with rfl | inner
  · exact ⟨[], scope, fresh⟩
  · exact Bound.exists_known_of_list scope fresh inner

/-- On every path through the code outside all functions, or through the body of one function,
a symbol that this code declares is used only after its declaration was executed, or after the
path has gone past it as a branch or the body of a loop. Where declarations stand in statement
lists, it is used only after its declaration was executed. -/
theorem SourceFile.declared_before_use {file : SourceFile} (clean : file.bind.2 = [])
    {body : List Bound.Statement} (mem : body ∈ file.bind.1.bodies)
    {before after : List Bound.Event} {s : SymbolId} {out : Bound.Outcome}
    (run : RunsList body (before ++ .use s :: after) out) (own : s ∈ ownSymbolsOfList body) :
    (.declare s ∈ before ∨ .skip s ∈ before) ∧ (file.DeclaresInLists → .declare s ∈ before) := by
  obtain ⟨known, scope, fresh⟩ := exists_known_of_clean clean mem
  have ready := run.settles scope (List.Subset.refl known) before s after rfl
  have foreign : s ∉ known := fun known =>
    fresh.disjoint s known (Bound.ownSymbolsOfList_subset body own)
  have settled := Bound.mem_settled.mp (ready.resolve_right foreign)
  refine ⟨settled, fun listed => settled.resolve_right fun skipped => ?_⟩
  obtain ⟨b, bound, _, found, paths⟩ := binds_of_clean clean
  have tidy : Bound.TidyList True file.bind.1.statements := bound.tidy (fun _ => listed) found paths
  have tidy' : Bound.TidyList True body := by
    rcases List.mem_cons.mp mem with rfl | inner
    · exact tidy
    · exact tidy.of_mem_bodies inner
  exact run.not_skip scope tidy' (List.mem_append_left _ skipped)

open Unplaced in
/-- A declaration in a loop: `fun f(c: Boolean) { while (c) { let x = 1 print x } }`. -/
def loopingFile : SourceFile :=
  source "looping" [function "f" [("c", "Boolean")] none
    [whileLoop (use "c") [val "x" (int 1), print (use "x")]]]

/-- The body of the function in `loopingFile`, where `c` is symbol 0 and `x` symbol 2. -/
def loopingBody : List Bound.Statement :=
  [.whileLoop (.reference 0 .boolean default) (.block
    [.declare 2 (.literal (.int 1) default) default, .print (.reference 2 .int default) default]
    default) default]

theorem loopingBody_mem : loopingBody ∈ loopingFile.bind.1.bodies := by
  have bound : loopingFile.bind.1.statements =
      [.function 1 [0] loopingBody true default default] := rfl
  rw [Bound.Program.bodies, bound]
  exact List.mem_cons_of_mem _ List.mem_cons_self

/-- On the path that repeats the loop once, the declaration comes before the use. -/
theorem loopingFile_declared :
    loopingFile.bind.2 = [] ∧ loopingFile.DeclaresInLists ∧
      RunsList loopingBody ([.use 0, .declare 2] ++ .use 2 :: [.use 0]) .done ∧
      2 ∈ ownSymbolsOfList loopingBody ∧ Bound.Event.declare 2 ∈ [.use 0, .declare 2] := by
  have clean : loopingFile.bind.2 = [] := by decide +kernel
  have listed : loopingFile.DeclaresInLists := by decide +kernel
  have own : 2 ∈ ownSymbolsOfList loopingBody := by decide
  have once : RunsList loopingBody _ .done :=
    .next (.whileRepeated .reference (.block (.next (.declare .literal)
      (.next (.print .reference) .nil))) rfl (.whilePassed .reference)) .nil
  have run : RunsList loopingBody ([.use 0, .declare 2] ++ .use 2 :: [.use 0]) .done := once
  exact ⟨clean, listed, run, own,
    (SourceFile.declared_before_use clean loopingBody_mem run own).2 listed⟩

open Unplaced in
/-- A declaration that is a branch: `fun f(c: Boolean): Int { if (c) let x = 1 return x }`. -/
def leakingFile : SourceFile :=
  source "leaking" [function "f" [("c", "Boolean")] "Int"
    [ifThen (use "c") (val "x" (int 1)), give (use "x")]]

/-- The body of the function in `leakingFile`, where `c` is symbol 0 and `x` symbol 2. -/
def leakingBody : List Bound.Statement :=
  [.ifThen (.reference 0 .boolean default)
    (.declare 2 (.literal (.int 1) default) default) default,
  .returns (some (.reference 2 .int default)) default]

theorem leakingBody_mem : leakingBody ∈ leakingFile.bind.1.bodies := by
  have bound : leakingFile.bind.1.statements =
      [.function 1 [0] leakingBody false default default] := rfl
  rw [Bound.Program.bodies, bound]
  exact List.mem_cons_of_mem _ List.mem_cons_self

/-- Where the condition fails, `x` is read although its declaration was not executed: nothing is
found in the file, but a path reaches the use without the declaration. -/
theorem leakingFile_undeclared :
    leakingFile.bind.2 = [] ∧ ∃ body ∈ leakingFile.bind.1.bodies, ∃ before after s out,
      RunsList body (before ++ .use s :: after) out ∧ s ∈ ownSymbolsOfList body ∧
        Bound.Event.declare s ∉ before := by
  refine ⟨by decide +kernel, leakingBody, leakingBody_mem, [.use 0, .skip 2], [], 2, .returned,
    ?_, by decide, by decide⟩
  exact (.next (.ifThenPassed .reference) (.stop (.returns .reference) nofun) :
    RunsList leakingBody _ .returned)

end Bindery
