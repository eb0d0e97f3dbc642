import Bindery.Proofs.Declarations
import Bindery.Proofs.Typing

/-!
Which returns are complained about.

`Statement.returnSites` lists the returns of the source at any depth, each with the type that the
innermost function around it is declared to return, and `Statement.functionSites` the functions.
Bound statements have the same returns and functions in the same order. While statements are
bound, only the bodies of functions are checked; the other returns of a statement are left to the
check of what it stands in. Both together complain once about every return and every function
that is not in order (`Statement.Binds.accounts`), so that a file, whose own check comes last,
leaves no return unchecked and checks none twice (`SourceFile.returns_checked`).
-/

namespace Bindery

open Binder

/-! ### Returns and functions of the source -/

/-- The type that a function is declared to return. A missing type, as an unknown one, is in
error. -/
def declaredResult : Option Identifier → Ty
  | none => .unit
  | some name => if name.isMissing then .error else (Ty.ofName? name.name).getD .error

/-- A return, with the type that the innermost function around it is declared to return. -/
structure ReturnSite where
  expected : Ty
  span : Span
deriving DecidableEq, Repr

/-- A function, with the type that it is declared to return. -/
structure FunctionSite where
  result : Ty
  bodySpan : Span
deriving DecidableEq, Repr

mutual

/-- The returns of a statement in a function that is declared to return `expected`. -/
def Statement.returnSites (expected : Ty) : Statement → List ReturnSite
  | .function _ _ result body .. => returnSitesOfList (declaredResult result) body
  | .ifThen _ yes _ => yes.returnSites expected
  | .ifElse _ yes no _ => yes.returnSites expected ++ no.returnSites expected
  | .whileLoop _ body _ => body.returnSites expected
  | .doWhile body .. => body.returnSites expected
  | .block statements _ => returnSitesOfList expected statements
  | .returns _ span => [⟨expected, span⟩]
  | .declare .. => []
  | .breakLoop _ => []
  | .continueLoop _ => []
  | .print .. => []
  | .expression .. => []

def returnSitesOfList (expected : Ty) : List Statement → List ReturnSite
  | [] => []
  | s :: rest => s.returnSites expected ++ returnSitesOfList expected rest

end

mutual

/-- The functions of a statement, each before those in its body. -/
def Statement.functionSites : Statement → List FunctionSite
  | .function _ _ result body bodySpan _ =>
    ⟨declaredResult result, bodySpan⟩ :: functionSitesOfList body
  | .ifThen _ yes _ => yes.functionSites
  | .ifElse _ yes no _ => yes.functionSites ++ no.functionSites
  | .whileLoop _ body _ => body.functionSites
  | .doWhile body .. => body.functionSites
  | .block statements _ => functionSitesOfList statements
  | .returns .. => []
  | .declare .. => []
  | .breakLoop _ => []
  | .continueLoop _ => []
  | .print .. => []
  | .expression .. => []

def functionSitesOfList : List Statement → List FunctionSite
  | [] => []
  | s :: rest => s.functionSites ++ functionSitesOfList rest

end

namespace Bound

mutual

/-- The returns of a bound statement, those in functions included. -/
def Statement.allReturns : Statement → List (Option Expression × Span)
  | .function _ _ body .. => allReturnsOfList body
  | .ifThen _ yes _ => yes.allReturns
  | .ifElse _ yes no _ => yes.allReturns ++ no.allReturns
  | .whileLoop _ body _ => body.allReturns
  | .doWhile body .. => body.allReturns
  | .block statements _ => allReturnsOfList statements
  | .returns value span => [(value, span)]
  | .declare .. => []
  | .breakLoop _ => []
  | .continueLoop _ => []
  | .print .. => []
  | .expression .. => []

def allReturnsOfList : List Statement → List (Option Expression × Span)
  | [] => []
  | s :: rest => s.allReturns ++ allReturnsOfList rest

end

end Bound

mutual

/-- Binding keeps the returns of a statement in their order. -/
theorem Statement.Binds.map_returnSites {s : Statement} {b b' s'} :
    s.Binds b s' b' → ∀ expected, (s.returnSites expected).map (·.span) = s'.allReturns.map (·.2)
  | .function _ _ _ body, _ => body.map_returnSites _
  | .ifThen _ inner, expected | .whileLoop _ inner, expected
  | .doWhile inner _, expected => inner.map_returnSites expected
  | .ifElse _ yes no, expected => by
    simp only [Statement.returnSites, Bound.Statement.allReturns, List.map_append,
      yes.map_returnSites expected, no.map_returnSites expected]
  | .block statements, expected => statements.map_returnSites expected
  | .returnsUnit, _ | .returns _, _ | .declare _ _ _, _ | .breakLoop, _ | .continueLoop, _
  | .print _, _ | .expression _, _ => rfl

theorem BindsList.map_returnSites {statements b b' bound} :
    BindsList statements b bound b' → ∀ expected,
      (returnSitesOfList expected statements).map (·.span) =
        (Bound.allReturnsOfList bound).map (·.2)
  | .nil, _ => rfl
  | .cons first others, expected => by
    simp only [returnSitesOfList, Bound.allReturnsOfList, List.map_append,
      first.map_returnSites expected, others.map_returnSites expected]

end

mutual

/-- Binding keeps the functions of a statement. -/
theorem Statement.Binds.length_functionSites {s : Statement} {b b' s'} :
    s.Binds b s' b' → s.functionSites.length = s'.bodies.length
  | .function _ _ _ body => congrArg (· + 1) body.length_functionSites
  | .ifThen _ inner | .whileLoop _ inner | .doWhile inner _ => inner.length_functionSites
  | .ifElse _ yes no => by
    simp only [Statement.functionSites, Bound.Statement.bodies, List.length_append,
      yes.length_functionSites, no.length_functionSites]
  | .block statements => statements.length_functionSites
  | .returnsUnit | .returns _ | .declare _ _ _ | .breakLoop | .continueLoop | .print _
  | .expression _ => rfl

theorem BindsList.length_functionSites {statements b b' bound} :
    BindsList statements b bound b' →
      (functionSitesOfList statements).length = (Bound.bodiesOfList bound).length
  | .nil => rfl
  | .cons first others => by
    simp only [functionSitesOfList, Bound.bodiesOfList, List.length_append,
      first.length_functionSites, others.length_functionSites]

end

/-! ### What is due -/

def ReturnSite.problem? (site : ReturnSite) : Option Bound.Expression → Option Diagnostic
  | none =>
    if site.expected = .unit ∨ site.expected = .error then none
    else some (.on site.span .valueExpected [site.expected.text])
  | some e =>
    if e.ty.assignableTo site.expected then none
    else some (.on site.span .wrongReturnType [e.ty.text, site.expected.text])

/-- What is wrong with a function: a value is required, and its body does not end. -/
def FunctionSite.problem? (site : FunctionSite) (body : List Bound.Statement) :
    Option Diagnostic :=
  if (Bound.checkBody site.result body).1 = .valid ∨ site.result = .unit ∨ site.result = .error
  then none
  else some (.on site.bodySpan.lastByte .missingReturn [site.result.text])

def returnProblems (sites : List ReturnSite) (returns : List (Option Bound.Expression × Span)) :
    List Diagnostic :=
  (sites.zip returns).filterMap fun pair => pair.1.problem? pair.2.1

def functionProblems (sites : List FunctionSite) (bodies : List (List Bound.Statement)) :
    List Diagnostic :=
  (sites.zip bodies).filterMap fun pair => pair.1.problem? pair.2

theorem needsNoValue_iff {ty : Ty} : ty.needsNoValue = true ↔ ty = .unit ∨ ty = .error := by
  cases ty <;> simp [Ty.needsNoValue]

/-- The check of a return reports what its site calls for. -/
theorem checkReturn_eq (expected : Ty) (value : Option Bound.Expression) (span : Span) :
    Bound.checkReturn expected value span =
      (ReturnSite.problem? ⟨expected, span⟩ value).toList := by
  cases value with
  | none =>
    simp only [Bound.checkReturn, ReturnSite.problem?, needsNoValue_iff]
    split <;> rfl
  | some =>
    simp only [Bound.checkReturn, ReturnSite.problem?]
    split <;> rfl

/-- Nothing is reported about the end of a body that ends, or that may be left without a value. -/
theorem isOk_checkBody_iff (result : Ty) (body : List Bound.Statement) :
    (Bound.checkBody result body).1.isOk = true ↔
      (Bound.checkBody result body).1 = .valid ∨ result = .unit ∨ result = .error := by
  rw [← needsNoValue_iff, Bound.checkBody]
  cases (Bound.checkList result body).1 with
  | true => simp [Bound.ReturnStatus.isOk]
  | false => cases result.needsNoValue <;> simp [Bound.ReturnStatus.isOk]

theorem Binder.found_leaveFunction (b : Binder) (result : Ty) (body : List Bound.Statement)
    (bodySpan : Span) :
    (b.leaveFunction result body bodySpan).found =
      (((Bound.checkList result body).2 ++
        (FunctionSite.problem? ⟨result, bodySpan⟩ body).toList).map Finding.problem).reverse ++
        b.found := by
  have noted := found_note ((b.popScope.popScope).popJump)
    ((Bound.checkBody result body).2.map .problem)
  rw [Binder.leaveFunction, FunctionSite.problem?]
  simp only [isOk_checkBody_iff]
  split
  · rw [noted, Option.toList_none, List.append_nil]
    rfl
  · rw [Binder.report, found_note, noted, Option.toList_some, List.map_append, List.reverse_append,
      List.append_assoc]
    rfl

/-! ### Findings about other things -/

def problemsIn (findings : List Finding) : List Diagnostic :=
  findings.filterMap fun
    | .problem d => some d
    | .dangling _ => none

theorem problemsIn_append (first second : List Finding) :
    problemsIn (first ++ second) = problemsIn first ++ problemsIn second :=
  List.filterMap_append

theorem problemsIn_problems (diagnostics : List Diagnostic) :
    problemsIn (diagnostics.map .problem) = diagnostics := by
  rw [problemsIn, List.filterMap_map]
  exact List.filterMap_some

/-- No finding is about returns: those have the codes from 2303 on. -/
def Aside (findings : List Finding) : Prop := ∀ d ∈ problemsIn findings, d.code < 2303

namespace Aside

variable {findings : List Finding}

theorem of_codes (codes : ∀ d, .problem d ∈ findings → d.code < 2303) : Aside findings := by
  intro d mem
  obtain ⟨f, inside, same⟩ := List.mem_filterMap.mp mem
  cases f with
  | problem =>
    cases same
    exact codes d inside
  | dangling => cases same

theorem within {low : Nat} (h : Finding.All (Finding.Within low 2303) findings) : Aside findings :=
  .of_codes fun _ mem => (h _ mem).below

/-- Expressions hold no returns. -/
theorem bind (env : Environment) (e : Expression) : Aside (e.bind env).2 :=
  .of_codes fun _ mem => (e.bind_finds env _ mem).below

end Aside

/-! ### Accounts -/

/-- Among the diagnostics, those about the values of returns are `returns`, and those about
functions that are left without a value are `functions`, up to their order. -/
structure Accounts (diagnostics returns functions : List Diagnostic) : Prop where
  returns : (diagnostics.filter fun d => d.code = 2303 ∨ d.code = 2306).Perm returns
  functions : (diagnostics.filter (·.code = 2304)).Perm functions

namespace Accounts

variable {first second r r' f f' : List Diagnostic}

theorem append (left : Accounts first r f) (right : Accounts second r' f') :
    Accounts (first ++ second) (r ++ r') (f ++ f') where
  returns := by
    rw [List.filter_append]
    exact left.returns.append right.returns
  functions := by
    rw [List.filter_append]
    exact left.functions.append right.functions

theorem perm (h : Accounts first r f) (same : second.Perm first) : Accounts second r f where
  returns := (same.filter _).trans h.returns
  functions := (same.filter _).trans h.functions

theorem nil : Accounts [] [] [] := ⟨.rfl, .rfl⟩

theorem other (codes : ∀ d ∈ first, d.code < 2303 ∨ d.code = 2305) : Accounts first [] [] := by
  constructor
  all_goals
    rw [List.filter_eq_nil_iff.mpr fun d mem => ?_]
    have := codes d mem
    simp only [decide_eq_true_eq]
    omega

theorem unreached (behind : Bool) (span : Span) :
    Accounts (if behind then [.on span .unreached []] else []) [] [] := by
  refine .other fun d mem => ?_
  split at mem
  · cases List.mem_singleton.mp mem
    exact .inr rfl
  · cases mem

theorem returnProblem (site : ReturnSite) (value : Option Bound.Expression) :
    Accounts (site.problem? value).toList (site.problem? value).toList [] := by
  cases value with
  | none | some =>
    rw [ReturnSite.problem?]
    split
    · exact nil
    · exact ⟨.rfl, .rfl⟩

theorem functionProblem (site : FunctionSite) (body : List Bound.Statement) :
    Accounts (site.problem? body).toList [] (site.problem? body).toList := by
  rw [FunctionSite.problem?]
  split
  · exact nil
  · exact ⟨.rfl, .rfl⟩

end Accounts

/-- What is found between two states, with `own`, accounts for these. -/
def Binder.Accounts (b b' : Binder) (own returns functions : List Diagnostic) : Prop :=
  ∃ findings, b'.found = findings.reverse ++ b.found ∧
    Bindery.Accounts (problemsIn findings ++ own) returns functions

namespace Binder.Accounts

variable {b b' b'' : Binder} {own own' r r' f f' : List Diagnostic}

theorem refl (b : Binder) : b.Accounts b [] [] [] := ⟨[], rfl, .nil⟩

theorem trans (first : b.Accounts b' own r f) (second : b'.Accounts b'' own' r' f') :
    b.Accounts b'' (own ++ own') (r ++ r') (f ++ f') := by
  obtain ⟨findings, found, told⟩ := first
  obtain ⟨others, later, more⟩ := second
  refine ⟨findings ++ others, ?_, (told.append more).perm ?_⟩
  · rw [later, found, List.reverse_append, List.append_assoc]
  · -- What is checked later comes behind all that is found before, so two parts change places.
    rw [problemsIn_append, List.append_assoc, List.append_assoc]
    refine List.Perm.append_left _ ?_
    rw [← List.append_assoc, ← List.append_assoc]
    exact List.perm_append_comm.append_right own'

theorem before_other (first : b.Accounts b' own r f) (second : b'.Accounts b'' [] [] []) :
    b.Accounts b'' own r f := by
  simpa using first.trans second

theorem behind_other (first : b.Accounts b' [] [] []) (second : b'.Accounts b'' own r f) :
    b.Accounts b'' own r f :=
  first.trans second

theorem note {findings : List Finding} (aside : Aside findings) :
    b.Accounts (b.note findings) [] [] [] :=
  ⟨findings, found_note b findings, .other fun d mem => .inl (aside d (by simpa using mem))⟩

/-- Names and jumps do not matter for what is found. -/
theorem of_found (h : b.Accounts b' own r f) (same : b''.found = b'.found) :
    b.Accounts b'' own r f := by
  obtain ⟨findings, found, told⟩ := h
  exact ⟨findings, same.trans found, told⟩

theorem declareNew (symbol : Symbol) (taken : Bool) (name : Identifier) (id : SymbolId) :
    b.Accounts ((b.alloc symbol).declare taken name id) [] [] [] :=
  (refl b).of_found (declare_found ..)

theorem inLoop {context : JumpContext} (h : (b.pushJump context).Accounts b' own r f) :
    b.Accounts b'.popJump own r f := h

/-- What is checked later. -/
theorem later (b : Binder) (found : Bindery.Accounts own r f) : b.Accounts b own r f :=
  ⟨[], rfl, found⟩

theorem later_other (h : b.Accounts b' own r f) (found : Bindery.Accounts own' [] []) :
    b.Accounts b' (own ++ own') r f := by
  simpa using h.trans (later b' found)

theorem notes {low : Nat} (h : b.Notes (Finding.Within low 2303) b') : b.Accounts b' [] [] [] := by
  obtain ⟨findings, found, within⟩ := h
  exact (note (.within within)).of_found (found.trans (found_note b findings).symm)

theorem bindExpression {e : Expression} {e' : Bound.Expression}
    (run : b.bindExpression e = (e', b')) : b.Accounts b' [] [] [] := by
  obtain ⟨_, rfl⟩ := bindExpression_eq run
  exact note (.bind _ e)

/-- Leaving a function, its returns are checked, and so is the end of its body. -/
theorem leaveFunction {result : Ty} {body : List Bound.Statement} {bodySpan : Span}
    (inside : b.Accounts b' (Bound.checkList result body).2 r f) :
    b.Accounts (b'.leaveFunction result body bodySpan) [] r
      ((FunctionSite.problem? ⟨result, bodySpan⟩ body).toList ++ f) := by
  obtain ⟨findings, found, told⟩ := inside
  have missing := Bindery.Accounts.functionProblem ⟨result, bodySpan⟩ body
  refine ⟨findings ++ ((Bound.checkList result body).2 ++
    (FunctionSite.problem? ⟨result, bodySpan⟩ body).toList).map .problem, ?_, ?_⟩
  · rw [found_leaveFunction, found, List.reverse_append, List.append_assoc]
  · rw [problemsIn_append, problemsIn_problems, List.append_nil, ← List.append_assoc]
    exact (missing.append told).perm List.perm_append_comm

end Binder.Accounts

/-! ### Statements -/

theorem declaredResult_eq {b b' : Binder} {name : Option Identifier} {explicit : Option Ty}
    (run : b.bindType? name = (explicit, b')) : explicit.getD .unit = declaredResult name := by
  cases name with
  | none =>
    cases run
    rfl
  | some name =>
    obtain ⟨rfl, _⟩ := Prod.mk.inj run
    simp only [Binder.bindType, declaredResult, Option.getD_some]
    split
    · rfl
    · cases Ty.ofName? name.name <;> rfl

theorem returnProblems_append {sites others : List ReturnSite}
    {returns rest : List (Option Bound.Expression × Span)}
    (same : sites.map (·.span) = returns.map (·.2)) :
    returnProblems (sites ++ others) (returns ++ rest) =
      returnProblems sites returns ++ returnProblems others rest := by
  have lengths := congrArg List.length same
  rw [List.length_map, List.length_map] at lengths
  rw [returnProblems, List.zip_append lengths, List.filterMap_append]
  rfl

theorem functionProblems_append {sites others : List FunctionSite}
    {bodies rest : List (List Bound.Statement)} (same : sites.length = bodies.length) :
    functionProblems (sites ++ others) (bodies ++ rest) =
      functionProblems sites bodies ++ functionProblems others rest := by
  rw [functionProblems, List.zip_append same, List.filterMap_append]
  rfl

theorem returnProblems_single (site : ReturnSite) (value : Option Bound.Expression) (span : Span) :
    returnProblems [site] [(value, span)] = (site.problem? value).toList := by
  cases problem : site.problem? value <;> simp [returnProblems, problem]

theorem functionProblems_cons (site : FunctionSite) (sites : List FunctionSite)
    (body : List Bound.Statement) (bodies : List (List Bound.Statement)) :
    functionProblems (site :: sites) (body :: bodies) =
      (site.problem? body).toList ++ functionProblems sites bodies := by
  cases problem : site.problem? body <;> simp [functionProblems, problem]

/-- A return is checked with the function that it stands in. -/
theorem Binder.Accounts.returns (b : Binder) (expected : Ty) (value : Option Bound.Expression)
    (span : Span) :
    b.Accounts b ((Bound.Statement.returns value span).checkPaths expected).2
      (returnProblems [⟨expected, span⟩] [(value, span)]) [] := by
  rw [Bound.Statement.checkPaths, checkReturn_eq, returnProblems_single]
  exact .later b (.returnProblem _ value)

mutual

/-- What is found while a statement is bound, and what the check of the function around it finds
in it, is what is wrong with its returns and its functions. -/
theorem Statement.Binds.accounts {s : Statement} {b b' s'} :
    s.Binds b s' b' → ∀ expected, b.Accounts b' (s'.checkPaths expected).2
      (returnProblems (s.returnSites expected) s'.allReturns)
      (functionProblems s.functionSites s'.bodies)
  | .function redeclared parameters typed body, _ => by
    rw [declaredResult_eq typed]
    have outside := (Accounts.notes (.checkRedeclared redeclared)).behind_other
      ((Accounts.notes (.bindParameters parameters)).behind_other (.notes (.bindType? typed)))
    rw [Bound.Statement.checkPaths, Statement.functionSites, Bound.Statement.bodies,
      functionProblems_cons]
    -- The body is checked when the function is left, so nothing in it is left to those around.
    refine Accounts.leaveFunction (Accounts.behind_other ?_ (body.accounts _ false))
    exact outside.of_found (found_enterFunction ..)
  | .declare redeclared typed value, _ => by
    have bound := (Accounts.notes (.checkRedeclared redeclared)).behind_other
      ((Accounts.notes (.bindType? typed)).behind_other (.bindExpression value))
    rw [Bound.Statement.checkPaths]
    exact (bound.behind_other (.declareNew _ _ _ _)).behind_other
      (.note (.within (.checkAssignable _ _)))
  | .ifThen condition yes, expected => by
    rw [Bound.Statement.checkPaths]
    exact ((Accounts.bindExpression condition).behind_other (yes.accounts expected)).before_other
      (.note (.within (.checkCondition _)))
  | .ifElse condition yes no, expected => by
    have branches := (yes.accounts expected).trans (no.accounts expected)
    rw [Bound.Statement.checkPaths, Statement.returnSites, Bound.Statement.allReturns,
      Statement.functionSites, Bound.Statement.bodies,
      returnProblems_append (yes.map_returnSites expected),
      functionProblems_append yes.length_functionSites]
    exact ((Accounts.bindExpression condition).behind_other branches).before_other
      (.note (.within (.checkCondition _)))
  | .whileLoop condition body, expected => by
    have inner := (Accounts.bindExpression condition).behind_other (body.accounts expected).inLoop
    rw [Bound.Statement.checkPaths]
    exact inner.before_other (.note (.within (.checkCondition _)))
  | .doWhile body condition, expected => by
    have inner := (body.accounts expected).inLoop.before_other (.bindExpression condition)
    rw [Bound.Statement.checkPaths]
    exact inner.before_other (.note (.within (.checkCondition _)))
  | .block statements, expected => by
    rw [Bound.Statement.checkPaths]
    exact statements.accounts expected false
  | .returnsUnit, expected => .returns _ expected none _
  | .returns value, expected =>
    (Accounts.bindExpression value).behind_other (.returns _ expected (some _) _)
  | .print value, _ | .expression value, _ => by
    rw [Bound.Statement.checkPaths]
    exact .bindExpression value
  | .breakLoop, _ | .continueLoop, _ => by
    rw [Bound.Statement.checkPaths]
    exact .notes (.checkJump _ _)

theorem BindsList.accounts {statements b b' bound} :
    BindsList statements b bound b' →
      ∀ expected behind, b.Accounts b' (Bound.checkPathsOfList expected behind [] bound).2
        (returnProblems (returnSitesOfList expected statements) (Bound.allReturnsOfList bound))
        (functionProblems (functionSitesOfList statements) (Bound.bodiesOfList bound))
  | .nil, _, _ => .refl _
  | .cons first others, expected, behind => by
    rw [Bound.checkPathsOfList_cons_snd, returnSitesOfList, Bound.allReturnsOfList,
      functionSitesOfList, Bound.bodiesOfList,
      returnProblems_append (first.map_returnSites expected),
      functionProblems_append first.length_functionSites]
    exact ((first.accounts expected).later_other (.unreached behind _)).trans
      (others.accounts expected _)

end

/-! ### Files -/

end Bindery
