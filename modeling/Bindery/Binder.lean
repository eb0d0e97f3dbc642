import Bindery.Bound.ReturnPath
import Bindery.Scope

/-!
Binding: from a syntax tree to a bound tree.

One walk over the tree declares symbols, resolves names through the scopes, types
expressions and checks jumps and returns. A problem is reported and binding goes
on with an error expression in place of the offending one, so that one mistake is
reported once.

One binder can bind several files; the names of the earlier files stay declared,
while each bound program takes the symbol table with it. A name that is still
declared can then stand for a position the new table does not hold. Such a lookup
is kept as a `Finding.dangling`, and what was bound from there on means nothing; a
new binder never meets one.
-/

namespace Bindery

/-- What binding comes across. -/
inductive Finding where
  | problem (diagnostic : Diagnostic)
  /-- A name stood for a position outside the symbol table. -/
  | dangling (symbol : SymbolId)
deriving DecidableEq, Repr, Inhabited

namespace Finding

def on (span : Span) (problem : Problem) (arguments : List String) : Finding :=
  .problem (.on span problem arguments)

end Finding

/-- What is wrong with a value stored where `target` is expected. -/
def checkAssignable (value : Bound.Expression) (target : Ty) : List Finding :=
  if value.ty.assignableTo target then []
  else [.on value.span .notAssignable [value.ty.text, target.text]]

def checkCondition (condition : Bound.Expression) : List Finding :=
  if condition.isError || condition.ty == .boolean then []
  else [.on condition.span .conditionNotBoolean [condition.ty.text]]

/-- What is wrong with the arguments passed for `parameters`, as far as both go. -/
def checkArguments : List Bound.Expression → List Ty → List Finding
  | argument :: arguments, parameter :: parameters =>
    (if argument.ty.assignableTo parameter then []
      else [.on argument.span .argumentNotAssignable [argument.ty.text, parameter.text]]) ++
      checkArguments arguments parameters
  | _, _ => []

def checkArgumentCount (span : Span) (expected actual : Nat) : List Finding :=
  if actual = expected then []
  else [.on span .wrongArgumentCount [toString expected, toString actual]]

/-- The variable that a bound target can store to. -/
def assignable? (symbols : SymbolTable) : Bound.Expression → Option (SymbolId × Symbol)
  | .reference id _ _ =>
    match symbols.get? id with
    | some symbol => if symbol.isVariable then some (id, symbol) else none
    | none => none
  | _ => none

/-- What a `break` or `continue` would have to cross. -/
inductive JumpContext where
  | function | loop
deriving DecidableEq, Repr, Inhabited

/-- The state of binding: what is declared, what encloses the current statement
(the innermost first), and what was found (the newest first). -/
structure Binder where
  scopes : ScopeChain
  symbols : SymbolTable
  jumps : List JumpContext
  found : List Finding
deriving Inhabited

namespace Binder

def new : Binder := ⟨∅, ∅, [], []⟩

/-- Adds findings, given in order. -/
def note (b : Binder) (findings : List Finding) : Binder :=
  { b with found := findings.reverseAux b.found }

def report (b : Binder) (span : Span) (problem : Problem) (arguments : List String) : Binder :=
  b.note [.on span problem arguments]

/-- The diagnostics reported so far, in order. -/
def diagnostics (b : Binder) : List Diagnostic :=
  b.found.reverse.filterMap fun
    | .problem d => some d
    | .dangling _ => none

/-- The first position looked up that the symbol table did not hold. -/
def dangling? (b : Binder) : Option SymbolId :=
  b.found.reverse.findSome? fun
    | .problem _ => none
    | .dangling id => some id

def clear (b : Binder) : Binder := { b with found := [] }

/-- Makes a symbol, without declaring its name. -/
def alloc (b : Binder) (symbol : Symbol) : Binder :=
  { b with symbols := b.symbols.alloc symbol }

/-- Declares a name in the innermost scope unless it is taken or missing. -/
def declare (b : Binder) (taken : Bool) (name : Identifier) (symbol : SymbolId) : Binder :=
  if taken || name.isMissing then b else { b with scopes := b.scopes.put name.name symbol }

def pushScope (b : Binder) : Binder := { b with scopes := b.scopes.push }

def popScope (b : Binder) : Binder := { b with scopes := b.scopes.pop }

def pushJump (b : Binder) (context : JumpContext) : Binder :=
  { b with jumps := context :: b.jumps }

def popJump (b : Binder) : Binder := { b with jumps := b.jumps.tail }

/-- Whether `name` is declared in the innermost scope already; if so it is reported. -/
def checkRedeclared (b : Binder) (name : Identifier) : Bool × Binder :=
  if b.scopes.declares name.name then (true, b.report name.span .redeclaredName [name.name])
  else (false, b)

/-- The type of a name. A missing name, as an unknown one, has the error type. -/
def bindType (b : Binder) (name : Identifier) : Ty × Binder :=
  if name.isMissing then (.error, b)
  else
    match Ty.ofName? name.name with
    | some ty => (ty, b)
    | none => (.error, b.report name.span .unknownType [name.name])

def bindType? (b : Binder) : Option Identifier → Option Ty × Binder
  | none => (none, b)
  | some name =>
    let r := b.bindType name
    (some r.1, r.2)

/-- Binds a reference to a name. A missing name has already been complained about. -/
def bindVariable (b : Binder) (name : Identifier) : Bound.Expression × Binder :=
  if name.isMissing then (.error name.span, b)
  else
    match b.scopes.get? name.name with
    | none => (.error name.span, b.report name.span .unknownName [name.name])
    | some id =>
      match b.symbols.get? id with
      | none => (.error name.span, b.note [.dangling id])
      | some symbol => (.reference id symbol.ty name.span, b)

mutual

def bindExpression : Binder → Expression → Bound.Expression × Binder
  | b, .literal value span => (.literal value span, b)
  | b, .reference name => b.bindVariable name
  | b, .assignment target value span =>
    match b.bindExpression target with
    | (target, b) =>
    match assignable? b.symbols target with
    | some (id, symbol) =>
      let b := if symbol.isReadOnly then b.report target.span .readOnlyTarget [symbol.name] else b
      match b.bindExpression value with
      | (value, b) =>
        (.assignment id value symbol.ty span, b.note (checkAssignable value symbol.ty))
    | none =>
      match b.bindExpression value with
      | (_, b) =>
        (.error span, if target.isError then b else b.report target.span .invalidTarget [])
  | b, .binary left operator operatorSpan right span =>
    match b.bindExpression left with
    | (left, b) =>
    match b.bindExpression right with
    | (right, b) =>
    if left.isError || right.isError then (.error span, b)
    else
      match BinaryOperation.resolve? left.ty operator right.ty with
      | some (operation, ty) => (.binary operation left right ty span, b)
      | none =>
        (.error span,
          b.report operatorSpan .undefinedBinary [operator.token, left.ty.text, right.ty.text])
  | b, .unary operator operatorSpan operand span =>
    match b.bindExpression operand with
    | (operand, b) =>
    if operand.isError then (.error span, b)
    else
      match UnaryOperation.resolve? operator operand.ty with
      | some (operation, ty) => (.unary operation operand ty span, b)
      | none =>
        (.error span, b.report operatorSpan .undefinedUnary [operator.token, operand.ty.text])
  | b, .parenthesized inner span =>
    match b.bindExpression inner with
    | (inner, b) => (.parenthesized inner span, b)
  | b, .call target arguments argumentsSpan span =>
    match b.bindExpression target with
    | (target, b) =>
    match b.bindExpressions arguments with
    | (arguments, b) =>
    match target.ty.signature? with
    | some (parameters, result) =>
      let b := b.note (checkArgumentCount argumentsSpan parameters.length arguments.length)
      (.call target arguments result span, b.note (checkArguments arguments parameters))
    | none =>
      (.error span,
        if target.isError then b else b.report target.span .notCallable [target.ty.text])
  | b, .ternary condition yes no span =>
    match b.bindExpression condition with
    | (condition, b) =>
    match b.bindExpression yes with
    | (yes, b) =>
    match b.bindExpression no with
    | (no, b) =>
      let ty := if yes.ty = no.ty then yes.ty else .any
      (.ternary condition yes no ty span, b.note (checkCondition condition))

def bindExpressions : Binder → List Expression → List Bound.Expression × Binder
  | b, [] => ([], b)
  | b, e :: rest =>
    match b.bindExpression e with
    | (e, b) =>
    match b.bindExpressions rest with
    | (rest, b) => (e :: rest, b)

end

/-- Makes the symbols of parameters, each with its type. A parameter without a
name has none; one whose name is among `seen` is reported and has one. -/
def bindParameters (b : Binder) (seen : List String) :
    List Parameter → List (SymbolId × String × Ty) × Binder
  | [] => ([], b)
  | p :: rest =>
    if p.name.isMissing then bindParameters b seen rest
    else
      let name := p.name.name
      let typed := b.bindType p.typeName
      let b := typed.2
      let b := if seen.contains name then b.report p.span .duplicateParameter [name] else b
      let id := b.symbols.size
      let others := bindParameters (b.alloc ⟨name, typed.1, .parameter⟩) (name :: seen) rest
      ((id, name, typed.1) :: others.1, others.2)

/-- Declares parameters in the innermost scope; the first of a name keeps it. -/
def declareParameters (b : Binder) : List (SymbolId × String × Ty) → Binder
  | [] => b
  | (id, name, _) :: rest =>
    if b.scopes.declares name then declareParameters b rest
    else declareParameters { b with scopes := b.scopes.put name id } rest

/-- A jump has to stand in a loop of its own function. -/
def checkJump (b : Binder) (span : Span) (keyword : String) : Binder :=
  if !b.jumps.contains .loop then b.report span .jumpOutsideLoop [keyword]
  else if b.jumps.head? = some .function then b.report span .jumpAcrossFunction [keyword]
  else b

end Binder

open Binder

mutual

def Statement.bind : Statement → Binder → Bound.Statement × Binder
  | .function name parameters result body bodySpan span, b =>
    match b.checkRedeclared name with
    | (taken, b) =>
    match b.bindParameters [] parameters with
    | (params, b) =>
    match b.bindType? result with
    | (result, b) =>
    let result := result.getD .unit
    let ids := params.map (·.1)
    let symbol := b.symbols.size
    let b := b.alloc ⟨name.name, .function (params.map (·.2.2)) result, .function ids⟩
    let b := b.declare taken name symbol
    let b := ((b.pushJump .function).pushScope).declareParameters params
    match bindList [] body b.pushScope with
    | (body, b) =>
    let b := (b.popScope.popScope).popJump
    let status := Bound.checkBody result body
    let b := b.note (status.2.map .problem)
    let b := if status.1.isOk then b
      else b.report bodySpan.lastByte .missingReturn [result.text]
    (.function symbol ids body (status.1 = .mustBeInserted) bodySpan span, b)
  | .declare name typeName readOnly value span, b =>
    match b.checkRedeclared name with
    | (taken, b) =>
    match b.bindType? typeName with
    | (explicit, b) =>
    match b.bindExpression value with
    | (value, b) =>
    let ty := explicit.getD value.ty
    let symbol := b.symbols.size
    let b := b.alloc ⟨name.name, ty, .binding readOnly⟩
    let b := b.declare taken name symbol
    (.declare symbol value span, b.note (checkAssignable value ty))
  | .ifThen condition yes span, b =>
    match b.bindExpression condition with
    | (condition, b) =>
    match yes.bind b with
    | (yes, b) => (.ifThen condition yes span, b.note (checkCondition condition))
  | .ifElse condition yes no span, b =>
    match b.bindExpression condition with
    | (condition, b) =>
    match yes.bind b with
    | (yes, b) =>
    match no.bind b with
    | (no, b) => (.ifElse condition yes no span, b.note (checkCondition condition))
  | .whileLoop condition body span, b =>
    match b.bindExpression condition with
    | (condition, b) =>
    match body.bind (b.pushJump .loop) with
    | (body, b) =>
      (.whileLoop condition body span, b.popJump.note (checkCondition condition))
  | .doWhile body condition span, b =>
    match body.bind (b.pushJump .loop) with
    | (body, b) =>
    match b.popJump.bindExpression condition with
    | (condition, b) => (.doWhile body condition span, b.note (checkCondition condition))
  | .block statements span, b =>
    match bindList [] statements b.pushScope with
    | (statements, b) => (.block statements span, b.popScope)
  | .returns none span, b => (.returns none span, b)
  | .returns (some value) span, b =>
    match b.bindExpression value with
    | (value, b) => (.returns (some value) span, b)
  | .breakLoop span, b => (.breakLoop span, b.checkJump span "break")
  | .continueLoop span, b => (.continueLoop span, b.checkJump span "continue")
  | .print value span, b =>
    match b.bindExpression value with
    | (value, b) => (.print value span, b)
  | .expression value span, b =>
    match b.bindExpression value with
    | (value, b) => (.expression value span, b)

/-- Binds statements in order. `done` holds those bound before, the newest first. -/
def bindList (done : List Bound.Statement) :
    List Statement → Binder → List Bound.Statement × Binder
  | [], b => (done.reverse, b)
  | s :: rest, b =>
    match s.bind b with
    | (s, b) => bindList (s :: done) rest b

end

/-- Binds a file. The bound program takes the symbols; the findings stay with
the binder. Code outside of functions is checked as the body of a function that
returns no value. -/
def Binder.bindFile (b : Binder) (file : SourceFile) : Bound.Program × Binder :=
  match bindList [] file.statements b with
  | (statements, b) =>
    let b := b.note ((Bound.checkBody .unit statements).2.map .problem)
    (⟨statements, b.symbols⟩, { b with symbols := ∅ })

/-- Binds one file after others: the bound program, its diagnostics, and the binder for the
next file. There is no result if a name of an earlier file stood for nothing. -/
def Binder.bindNext? (b : Binder) (file : SourceFile) :
    Option (Bound.Program × List Diagnostic × Binder) :=
  match b.bindFile file with
  | (program, b) => if b.dangling?.isSome then none else some (program, b.diagnostics, b.clear)

/-- Binds a file with a new binder: the bound program and its diagnostics. -/
def SourceFile.bind (file : SourceFile) : Bound.Program × List Diagnostic :=
  match Binder.new.bindFile file with
  | (program, b) => (program, b.diagnostics)

end Bindery
