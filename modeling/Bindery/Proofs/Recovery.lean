import Mathlib.Data.List.Forall2
import Bindery.Proofs.Typing

/-!
One mistake is reported once, as far as it is.

`Statement.Replaces r n s s'` says that `s'` is `s` with `n` expressions replaced by references
to the name `r`. If the name is unknown, the file with the replaced expressions is bound like
the one that was in order, except that types are spoiled (`Ty.Spoiled`): what depends on a
replaced expression has the error type, which is never complained about, or else type `Any`,
because a conditional expression has that type as soon as its branches differ, even where one
of them is only in error. So besides the unknown names there can be complaints about values of
type `Any` (`Diagnostic.BlamesAny`), and there are none where no conditional expression is
bound with one branch in error and one that is not (`Statement.balanced`).
-/

namespace Bindery

open Binder
open Bindery.Bound (ProperSymbols)

/-! ### Replaced expressions -/

mutual

/-- `e'` is `e` with `n` occurrences of expressions replaced by references to `r`. -/
inductive Expression.Replaces (r : Identifier) : Nat → Expression → Expression → Prop where
  | here {e} : Expression.Replaces r 1 e (.reference r)
  | literal {value span} : Expression.Replaces r 0 (.literal value span) (.literal value span)
  | reference {name} : Expression.Replaces r 0 (.reference name) (.reference name)
  | assignment {m n target target' value value' span} : target.Replaces r m target' →
      value.Replaces r n value' →
      Expression.Replaces r (m + n) (.assignment target value span)
        (.assignment target' value' span)
  | binary {m n left left' operator operatorSpan right right' span} :
      left.Replaces r m left' → right.Replaces r n right' →
      Expression.Replaces r (m + n) (.binary left operator operatorSpan right span)
        (.binary left' operator operatorSpan right' span)
  | unary {n operator operatorSpan operand operand' span} :
      operand.Replaces r n operand' →
      Expression.Replaces r n (.unary operator operatorSpan operand span)
        (.unary operator operatorSpan operand' span)
  | parenthesized {n inner inner' span} : inner.Replaces r n inner' →
      Expression.Replaces r n (.parenthesized inner span) (.parenthesized inner' span)
  | call {m n target target' arguments arguments' argumentsSpan span} :
      target.Replaces r m target' → ArgumentsReplace r n arguments arguments' →
      Expression.Replaces r (m + n) (.call target arguments argumentsSpan span)
        (.call target' arguments' argumentsSpan span)
  | ternary {l m n condition condition' yes yes' no no' span} :
      condition.Replaces r l condition' → yes.Replaces r m yes' →
      no.Replaces r n no' →
      Expression.Replaces r (l + m + n) (.ternary condition yes no span)
        (.ternary condition' yes' no' span)

inductive ArgumentsReplace (r : Identifier) : Nat → List Expression → List Expression → Prop where
  | nil : ArgumentsReplace r 0 [] []
  | cons {m n e e' rest rest'} : e.Replaces r m e' → ArgumentsReplace r n rest rest' →
      ArgumentsReplace r (m + n) (e :: rest) (e' :: rest')

end

mutual

/-- `s'` is `s` with `n` occurrences of expressions replaced by references to `r`. -/
inductive Statement.Replaces (r : Identifier) : Nat → Statement → Statement → Prop where
  | function {n name parameters result body body' bodySpan span} :
      StatementsReplace r n body body' →
      Statement.Replaces r n (.function name parameters result body bodySpan span)
        (.function name parameters result body' bodySpan span)
  | declare {n name typeName readOnly value value' span} : value.Replaces r n value' →
      Statement.Replaces r n (.declare name typeName readOnly value span)
        (.declare name typeName readOnly value' span)
  | ifThen {m n condition condition' yes yes' span} : condition.Replaces r m condition' →
      yes.Replaces r n yes' →
      Statement.Replaces r (m + n) (.ifThen condition yes span) (.ifThen condition' yes' span)
  | ifElse {l m n condition condition' yes yes' no no' span} : condition.Replaces r l condition' →
      yes.Replaces r m yes' → no.Replaces r n no' →
      Statement.Replaces r (l + m + n) (.ifElse condition yes no span)
        (.ifElse condition' yes' no' span)
  | whileLoop {m n condition condition' body body' span} : condition.Replaces r m condition' →
      body.Replaces r n body' →
      Statement.Replaces r (m + n) (.whileLoop condition body span)
        (.whileLoop condition' body' span)
  | doWhile {m n body body' condition condition' span} : body.Replaces r m body' →
      condition.Replaces r n condition' →
      Statement.Replaces r (m + n) (.doWhile body condition span) (.doWhile body' condition' span)
  | block {n statements statements' span} : StatementsReplace r n statements statements' →
      Statement.Replaces r n (.block statements span) (.block statements' span)
  | returnsUnit {span} : Statement.Replaces r 0 (.returns none span) (.returns none span)
  | returns {n value value' span} : value.Replaces r n value' →
      Statement.Replaces r n (.returns (some value) span) (.returns (some value') span)
  | breakLoop {span} : Statement.Replaces r 0 (.breakLoop span) (.breakLoop span)
  | continueLoop {span} : Statement.Replaces r 0 (.continueLoop span) (.continueLoop span)
  | print {n value value' span} : value.Replaces r n value' →
      Statement.Replaces r n (.print value span) (.print value' span)
  | expression {n value value' span} : value.Replaces r n value' →
      Statement.Replaces r n (.expression value span) (.expression value' span)

inductive StatementsReplace (r : Identifier) : Nat → List Statement → List Statement → Prop where
  | nil : StatementsReplace r 0 [] []
  | cons {m n s s' rest rest'} : s.Replaces r m s' → StatementsReplace r n rest rest' →
      StatementsReplace r (m + n) (s :: rest) (s' :: rest')

end

/-! ### Conditional expressions with one branch in error -/

mutual

/-- No conditional expression is bound with one branch in error and one that is not. -/
def Expression.balanced (env : Environment) : Expression → Bool
  | .literal .. => true
  | .reference _ => true
  | .assignment target value _ => target.balanced env && value.balanced env
  | .binary left _ _ right _ => left.balanced env && right.balanced env
  | .unary _ _ operand _ => operand.balanced env
  | .parenthesized inner _ => inner.balanced env
  | .call target arguments .. => target.balanced env && balancedArguments env arguments
  | .ternary condition yes no _ =>
    condition.balanced env && yes.balanced env && no.balanced env &&
      (yes.bind env).1.isError == (no.bind env).1.isError

def balancedArguments (env : Environment) : List Expression → Bool
  | [] => true
  | e :: rest => e.balanced env && balancedArguments env rest

end

mutual

def Statement.balanced : Statement → Binder → Bool
  | .function name parameters result body .., b =>
    match b.checkRedeclared name with
    | (taken, b) =>
    match b.bindParameters [] parameters with
    | (params, b) =>
    match b.bindType? result with
    | (result, b) => balancedList body (b.enterFunction taken name params (result.getD .unit))
  | .declare _ _ _ value _, b => value.balanced b.environment
  | .ifThen condition yes _, b =>
    condition.balanced b.environment && yes.balanced (b.bindExpression condition).2
  | .ifElse condition yes no _, b =>
    condition.balanced b.environment && yes.balanced (b.bindExpression condition).2 &&
      no.balanced (yes.bind (b.bindExpression condition).2).2
  | .whileLoop condition body _, b =>
    condition.balanced b.environment &&
      body.balanced ((b.bindExpression condition).2.pushJump .loop)
  | .doWhile body condition _, b =>
    body.balanced (b.pushJump .loop) &&
      condition.balanced (body.bind (b.pushJump .loop)).2.environment
  | .block statements _, b => balancedList statements b.pushScope
  | .returns none _, _ => true
  | .returns (some value) _, b => value.balanced b.environment
  | .breakLoop _, _ => true
  | .continueLoop _, _ => true
  | .print value _, b => value.balanced b.environment
  | .expression value _, b => value.balanced b.environment

def balancedList : List Statement → Binder → Bool
  | [], _ => true
  | s :: rest, b => s.balanced b && balancedList rest (s.bind b).2

end

def SourceFile.balanced (file : SourceFile) : Bool := balancedList file.statements .new

/-! ### Spoiled types -/

theorem Ty.isError_iff {t : Ty} : t.isError = true ↔ t = .error := by
  cases t <;> simp [isError]

/-- What becomes of a type where expressions it depends on are in error. Only in the loose sense
it can become `Any`. -/
inductive Ty.Spoiled (loose : Prop) : Ty → Ty → Prop where
  | same {t} : Ty.Spoiled loose t t
  | error {t} : Ty.Spoiled loose t .error
  | any {t} : loose → Ty.Spoiled loose t .any

namespace Ty.Spoiled

variable {loose : Prop} {t t' target target' : Ty}

theorem cases (h : t.Spoiled loose t') : t' = t ∨ t' = .error ∨ loose ∧ t' = .any := by
  cases h with
  | same => exact .inl rfl
  | error => exact .inr (.inl rfl)
  | any loosely => exact .inr (.inr ⟨loosely, rfl⟩)

/-- A spoiled value is stored where the value could be stored, or it has become `Any`. -/
theorem assignableTo (value : t.Spoiled loose t') (place : target.Spoiled loose target')
    (fits : t.assignableTo target = true) : t'.assignableTo target' = true ∨ loose ∧ t' = .any := by
  cases value with
  | error => exact .inl (by simp [Ty.assignableTo, Ty.isError])
  | any loosely => exact .inr ⟨loosely, rfl⟩
  | same =>
    cases place with
    | same => exact .inl fits
    | error => exact .inl (by simp [Ty.assignableTo, Ty.isError])
    | any => exact .inl (by simp [Ty.assignableTo])

/-- The type of a conditional expression. It becomes `Any` where it was not only if one branch
is in error and the other is not. -/
theorem conditional {n n' : Ty} (yes : t.Spoiled loose t') (no : n.Spoiled loose n')
    (both : loose ∨ t'.isError = n'.isError) :
    (if t = n then t else .any).Spoiled loose (if t' = n' then t' else .any) := by
  by_cases same : t = n
  · subst same
    rw [if_pos rfl]
    by_cases same' : t' = n'
    · rw [if_pos same']
      exact yes
    · rw [if_neg same']
      by_cases loosely : loose
      · exact .any loosely
      · have balanced := both.resolve_left loosely
        rcases yes.cases with rfl | rfl | ⟨no, _⟩
        · rcases no.cases with rfl | rfl | ⟨no, _⟩
          · exact absurd rfl same'
          · exact absurd (isError_iff.mp balanced) same'
          · exact absurd no loosely
        · exact absurd (isError_iff.mp balanced.symm).symm same'
        · exact absurd no loosely
  · rw [if_neg same]
    split
    · rename_i same'
      subst same'
      rcases yes.cases with rfl | rfl | ⟨_, rfl⟩
      · rcases no.cases with rfl | rfl | ⟨_, rfl⟩
        · exact absurd rfl same
        · exact .error
        · exact .same
      · exact .error
      · exact .same
    · exact .same

end Ty.Spoiled

/-- A symbol table in which types are spoiled. -/
structure SymbolTable.Spoiled (loose : Prop) (t t' : SymbolTable) : Prop where
  size : t'.size = t.size
  get : ∀ {id s}, t.get? id = some s →
    ∃ ty, t'.get? id = some { s with ty } ∧ s.ty.Spoiled loose ty

theorem SymbolTable.Spoiled.alloc {loose : Prop} {t t' : SymbolTable} (h : t.Spoiled loose t')
    {s : Symbol} {ty : Ty} (spoiled : s.ty.Spoiled loose ty) :
    (t.alloc s).Spoiled loose (t'.alloc { s with ty }) where
  size := by simp [h.size]
  get {id} other known := by
    rw [get?_alloc] at known ⊢
    rw [h.size]
    split at known
    · cases known
      exact ⟨ty, if_pos ‹_›, spoiled⟩
    · rw [if_neg ‹_›]
      exact h.get known

/-- The same names stand for symbols whose types are spoiled, and `r` stands for none. -/
structure Environment.Spoiled (loose : Prop) (r : Identifier) (env env' : Environment) : Prop where
  scopes : env'.scopes = env.scopes
  symbols : env.symbols.Spoiled loose env'.symbols
  unknown : env.scopes.get? r.name = none

/-! ### What is reported -/

/-- A complaint about a value of type `Any`. -/
inductive Diagnostic.BlamesAny : Diagnostic → Prop where
  | notAssignable {span target} : BlamesAny (.on span .notAssignable [Ty.any.text, target])
  | left {span operator right} :
      BlamesAny (.on span .undefinedBinary [operator, Ty.any.text, right])
  | right {span operator left} :
      BlamesAny (.on span .undefinedBinary [operator, left, Ty.any.text])
  | operand {span operator} : BlamesAny (.on span .undefinedUnary [operator, Ty.any.text])
  | condition {span} : BlamesAny (.on span .conditionNotBoolean [Ty.any.text])
  | target {span} : BlamesAny (.on span .notCallable [Ty.any.text])
  | argument {span target} : BlamesAny (.on span .argumentNotAssignable [Ty.any.text, target])
  | returned {span target} : BlamesAny (.on span .wrongReturnType [Ty.any.text, target])

def Diagnostic.unknown (r : Identifier) : Diagnostic := .on r.span .unknownName [r.name]

theorem Diagnostic.BlamesAny.ne_unknown {d : Diagnostic} (blames : d.BlamesAny) (r : Identifier) :
    d ≠ .unknown r := by
  rintro rfl
  cases blames

/-- Among the findings, the unknown name is reported `n` times, and there is nothing else but,
in the loose sense, complaints about `Any`. -/
structure Reports (loose : Prop) (r : Identifier) (n : Nat) (findings : List Finding) : Prop where
  count : findings.count (.problem (.unknown r)) = n
  others : ∀ f ∈ findings, f = .problem (.unknown r) ∨ loose ∧ ∃ d, f = .problem d ∧ d.BlamesAny

namespace Reports

variable {loose : Prop} {r : Identifier} {m n : Nat} {first second : List Finding}

theorem nil : Reports loose r 0 [] := ⟨rfl, fun _ mem => absurd mem List.not_mem_nil⟩

theorem unknown : Reports loose r 1 [.problem (.unknown r)] :=
  ⟨by simp, fun _ mem => .inl (List.mem_singleton.mp mem)⟩

theorem blames {d : Diagnostic} (loosely : loose) (blames : d.BlamesAny) :
    Reports loose r 0 [.problem d] where
  count := by
    refine List.count_eq_zero.mpr fun mem => blames.ne_unknown r ?_
    exact (Finding.problem.inj (List.mem_singleton.mp mem)).symm
  others f mem := .inr ⟨loosely, d, List.mem_singleton.mp mem, blames⟩

theorem append (one : Reports loose r m first) (two : Reports loose r n second) :
    Reports loose r (m + n) (first ++ second) where
  count := by rw [List.count_append, one.count, two.count]
  others f mem := (List.mem_append.mp mem).elim (one.others f) (two.others f)

theorem appendNone (one : Reports loose r m first) (two : Reports loose r 0 second) :
    Reports loose r m (first ++ second) := one.append two

theorem problems {diagnostics : List Diagnostic} (blames : ∀ d ∈ diagnostics, loose ∧ d.BlamesAny) :
    Reports loose r 0 (diagnostics.map .problem) := by
  induction diagnostics with
  | nil => exact .nil
  | cons _ _ ih =>
    obtain ⟨⟨loosely, one⟩, more⟩ := List.forall_mem_cons.mp blames
    exact (Reports.blames loosely one).append (ih more)

theorem reverse (one : Reports loose r m first) : Reports loose r m first.reverse where
  count := by rw [List.count_reverse, one.count]
  others f mem := one.others f (List.mem_reverse.mp mem)

/-- A spoiled value is complained about only as being of type `Any`. -/
theorem checkAssignable {value value' : Bound.Expression} {target target' : Ty}
    (typed : value.ty.Spoiled loose value'.ty) (place : target.Spoiled loose target')
    (clean : checkAssignable value target = []) :
    Reports loose r 0 (checkAssignable value' target') := by
  unfold Bindery.checkAssignable
  rcases typed.assignableTo place (checkAssignable_eq_nil clean) with fits | ⟨loosely, any⟩
  · rw [if_pos fits]
    exact .nil
  · split
    · exact .nil
    · rw [any]
      exact .blames loosely .notAssignable

theorem checkCondition {condition condition' : Bound.Expression}
    (typed : condition.ty.Spoiled loose condition'.ty) (sound : condition.isError = false)
    (clean : checkCondition condition = []) : Reports loose r 0 (checkCondition condition') := by
  have boolean := ty_of_checkCondition sound clean
  rw [boolean] at typed
  unfold Bindery.checkCondition Bound.Expression.isError
  generalize condition'.ty = ty at typed ⊢
  cases typed with
  | same | error => exact .nil
  | any loosely => exact .blames loosely .condition

theorem checkArguments {arguments arguments' : List Bound.Expression}
    (typed : List.Forall₂ (fun a a' : Bound.Expression => a.ty.Spoiled loose a'.ty) arguments
      arguments') :
    ∀ {parameters : List Ty}, checkArguments arguments parameters = [] →
      Reports loose r 0 (checkArguments arguments' parameters) := by
  induction typed with
  | nil => exact fun _ => .nil
  | @cons a _ _ _ first _ ih =>
    intro parameters clean
    cases parameters with
    | nil => exact .nil
    | cons p =>
      rw [Bindery.checkArguments, List.append_eq_nil_iff] at clean
      have fits : a.ty.assignableTo p = true := by
        have one := clean.1
        split at one
        · assumption
        · cases one
      refine Reports.append (m := 0) ?_ (ih clean.2)
      rcases first.assignableTo .same fits with still | ⟨loosely, any⟩
      · rw [if_pos still]
        exact .nil
      · split
        · exact .nil
        · rw [any]
          exact .blames loosely .argument

end Reports

/-! ### Expressions -/

section Expressions

variable {loose : Prop} {r : Identifier} {env env' : Environment}

theorem BinaryOperation.resolve?_any_left (operator : BinaryOperator) (right : Ty) :
    resolve? .any operator right = none := by
  unfold resolve?
  split
  · cases operator <;> rfl
  · rfl

theorem BinaryOperation.resolve?_any_right (left : Ty) (operator : BinaryOperator) :
    resolve? left operator .any = none := by
  unfold resolve?
  split
  · rename_i same
    subst same
    cases operator <;> rfl
  · rfl

theorem UnaryOperation.resolve?_any (operator : UnaryOperator) : resolve? operator .any = none := by
  cases operator <;> rfl

/-- An unknown name is reported. -/
theorem bindReference_unknown (spoiled : env.Spoiled loose r env') (named : r.isMissing = false) :
    bindReference env' r = (.error r.span, [.problem (.unknown r)]) := by
  unfold bindReference
  rw [named, if_neg Bool.false_ne_true, spoiled.scopes, spoiled.unknown]
  rfl

/-- Nothing that is bound without findings is in error. -/
theorem Expression.isError_eq_false (proper : ProperSymbols env.symbols) {e : Expression}
    (named : AllNamed e.identifiers) (clean : (e.bind env).2 = []) :
    (e.bind env).1.isError = false :=
  (e.bind_hasType proper named clean).sound proper

/-- Only a reference to a name can be stored to. -/
theorem Expression.eq_reference_of_assignable {target : Expression} {p : SymbolId × Symbol}
    (found : assignable? env.symbols (target.bind env).1 = some p) :
    ∃ name, target = .reference name := by
  cases target with
  | reference name => exact ⟨name, rfl⟩
  | literal | parenthesized | ternary => cases found
  | assignment | binary | unary | call =>
    rw [Expression.bind] at found
    grind [assignable?]

/-- The same name in a spoiled environment. -/
theorem bindReference_spoiled (spoiled : env.Spoiled loose r env') {name : Identifier}
    {id : SymbolId} {symbol : Symbol} (named : name.isMissing = false)
    (seen : env.scopes.get? name.name = some id) (known : env.symbols.get? id = some symbol) :
    ∃ ty, env'.symbols.get? id = some { symbol with ty } ∧ symbol.ty.Spoiled loose ty ∧
      bindReference env' name = (.reference id ty name.span, []) := by
  obtain ⟨ty, there, typed⟩ := spoiled.symbols.get known
  refine ⟨ty, there, typed, ?_⟩
  unfold bindReference
  rw [named, if_neg Bool.false_ne_true, spoiled.scopes, seen]
  simp only [there]

/-- A binding with findings against one without: the type is spoiled, and the unknown name is
reported `n` times. -/
structure Spoils (loose : Prop) (r : Identifier) (n : Nat) (bound : Bound.Expression)
    (result : Bound.Expression × List Finding) : Prop where
  ty : bound.ty.Spoiled loose result.1.ty
  found : Reports loose r n result.2

mutual

/-- An expression some of whose parts are replaced is bound like the expression itself, but
for spoiled types. -/
theorem Expression.Replaces.spoils {n e'} (spoiled : env.Spoiled loose r env')
    (known : r.isMissing = false) (proper : ProperSymbols env.symbols) {e : Expression} :
    e.Replaces r n e' → AllNamed e.identifiers →
      (e.bind env).2 = [] → loose ∨ e'.balanced env' = true →
      Spoils loose r n (e.bind env).1 (e'.bind env')
  | .here, _, _, _ => by
    rw [Expression.bind.eq_2 env', bindReference_unknown spoiled known]
    exact ⟨.error, .unknown⟩
  | .literal, _, _, _ => ⟨.same, .nil⟩
  | .reference, named, clean, _ => by
    obtain ⟨_, symbol, seen, there, bound⟩ := bindReference_clean (allNamed_cons.mp named).1 clean
    obtain ⟨ty, _, typed, spoils⟩ :=
      bindReference_spoiled spoiled (allNamed_cons.mp named).1 seen there
    rw [Expression.bind, Expression.bind, bound, spoils]
    exact ⟨typed, .nil⟩
  | .assignment target value, named, clean, balanced => by
    rw [Expression.identifiers, allNamed_append] at named
    simp only [Expression.balanced, Bool.and_eq_true, or_and_left] at balanced
    obtain ⟨first, second, id, symbol, found, writable, fits, whole⟩ :=
      Expression.assignment_clean (Expression.isError_eq_false proper named.1) clean
    have two := value.spoils spoiled known proper named.2 second balanced.2
    obtain ⟨name, rfl⟩ := Expression.eq_reference_of_assignable found
    cases target with
    | here =>
      rw [Expression.bind.eq_3 env', Expression.bind.eq_2 env', bindReference_unknown spoiled known]
      exact ⟨.error, (Reports.unknown.append two.found).appendNone .nil⟩
    | reference =>
      have here := (allNamed_cons.mp named.1).1
      obtain ⟨_, _, seen, there, bound⟩ := bindReference_clean here first
      rw [Expression.bind, bound, assignable?_eq_some] at found
      obtain ⟨⟨_, _, ⟨⟩⟩, same, variable_⟩ := found
      rw [there] at same
      cases same
      obtain ⟨ty', there', typed, spoils⟩ := bindReference_spoiled spoiled here seen there
      have stores : assignable? env'.symbols (.reference _ ty' name.span) =
          some (_, { symbol with ty := ty' }) :=
        assignable?_eq_some.mpr ⟨⟨_, _, rfl⟩, there', variable_⟩
      have still : ({ symbol with ty := ty' } : Symbol).isReadOnly = false := writable
      rw [Expression.bind.eq_3 env', Expression.bind.eq_2 env', spoils]
      simp only [stores, still, Bool.false_eq_true, if_false]
      rw [whole]
      exact ⟨typed, ((Reports.nil.appendNone .nil).append two.found).appendNone
        (.checkAssignable two.ty typed fits)⟩
  | .binary left right, named, clean, balanced => by
    rw [Expression.identifiers, allNamed_append] at named
    obtain ⟨first, second, _, _, resolved, whole⟩ := Expression.binary_clean
      (Expression.isError_eq_false proper named.1)
      (Expression.isError_eq_false proper named.2) clean
    simp only [Expression.balanced, Bool.and_eq_true, or_and_left] at balanced
    have one := left.spoils spoiled known proper named.1 first balanced.1
    have two := right.spoils spoiled known proper named.2 second balanced.2
    have found := one.found.append two.found
    rw [whole, Expression.bind]
    split
    · exact ⟨.error, found⟩
    · rename_i sound
      rw [Bool.not_eq_true, Bool.or_eq_false_iff] at sound
      rcases one.ty.cases with same | error | ⟨loosely, any⟩
      · rcases two.ty.cases with same' | error | ⟨loosely, any⟩
        · rw [same, same', resolved]
          exact ⟨.same, found⟩
        · simp [Bound.Expression.isError, error, Ty.isError] at sound
        · rw [any, BinaryOperation.resolve?_any_right]
          exact ⟨.error, found.appendNone (.blames loosely .right)⟩
      · simp [Bound.Expression.isError, error, Ty.isError] at sound
      · rw [any, BinaryOperation.resolve?_any_left]
        exact ⟨.error, found.appendNone (.blames loosely .left)⟩
  | .unary operand, named, clean, balanced => by
    rw [Expression.identifiers] at named
    obtain ⟨inner, _, _, resolved, whole⟩ :=
      Expression.unary_clean (Expression.isError_eq_false proper named) clean
    have one := operand.spoils spoiled known proper named inner balanced
    rw [whole, Expression.bind]
    split
    · exact ⟨.error, one.found⟩
    · rename_i sound
      rcases one.ty.cases with same | error | ⟨loosely, any⟩
      · rw [same, resolved]
        exact ⟨.same, one.found⟩
      · simp [Bound.Expression.isError, error, Ty.isError] at sound
      · rw [any, UnaryOperation.resolve?_any]
        exact ⟨.error, one.found.appendNone (.blames loosely .operand)⟩
  | .parenthesized inner, named, clean, balanced => by
    have one := inner.spoils spoiled known proper named clean balanced
    exact ⟨one.ty, one.found⟩
  | .call target arguments, named, clean, balanced => by
    rw [Expression.identifiers, allNamed_append] at named
    simp only [Expression.balanced, Bool.and_eq_true, or_and_left] at balanced
    obtain ⟨first, others, _, _, signature, count, fits, whole⟩ :=
      Expression.call_clean (Expression.isError_eq_false proper named.1) clean
    have one := target.spoils spoiled known proper named.1 first balanced.1
    obtain ⟨typed, more⟩ := arguments.spoils spoiled known proper named.2 others balanced.2
    have found := one.found.append more
    rw [whole, Expression.bind]
    rcases one.ty.cases with same | error | ⟨loosely, any⟩
    · rw [same, signature]
      refine ⟨.same, (found.appendNone ?_).appendNone (.checkArguments typed fits)⟩
      rw [← typed.length_eq, count]
      exact .nil
    · rw [error]
      refine ⟨.error, found.appendNone ?_⟩
      simp only [Bound.Expression.isError, error]
      exact .nil
    · rw [any]
      refine ⟨.error, found.appendNone ?_⟩
      simp only [Bound.Expression.isError, any]
      exact .blames loosely .target
  | .ternary condition yes no, named, clean, balanced => by
    rw [Expression.identifiers, allNamed_append, allNamed_append] at named
    simp only [Expression.balanced, Bool.and_eq_true, or_and_left] at balanced
    obtain ⟨test, first, second, boolean⟩ := Expression.ternary_clean clean
    obtain ⟨⟨⟨tested, one⟩, two⟩, both⟩ := balanced
    have tests := condition.spoils spoiled known proper named.1 test tested
    have yes := yes.spoils spoiled known proper named.2.1 first one
    have no := no.spoils spoiled known proper named.2.2 second two
    have sound := Expression.isError_eq_false proper named.1 test
    refine ⟨?_, ((tests.found.append yes.found).append no.found).appendNone
      (.checkCondition tests.ty sound boolean)⟩
    exact yes.ty.conditional no.ty (both.imp_right eq_of_beq)

/-- Arguments are bound as before, up to spoiled types. -/
theorem ArgumentsReplace.spoils {n es es'} (spoiled : env.Spoiled loose r env')
    (known : r.isMissing = false) (proper : ProperSymbols env.symbols) :
    ArgumentsReplace r n es es' →
      AllNamed (identifiersOfArguments es) → (bindArguments env es).2 = [] →
      loose ∨ balancedArguments env' es' = true →
      List.Forall₂ (fun a a' : Bound.Expression => a.ty.Spoiled loose a'.ty)
          (bindArguments env es).1 (bindArguments env' es').1 ∧
        Reports loose r n (bindArguments env' es').2
  | .nil, _, _, _ => ⟨.nil, .nil⟩
  | .cons first others, named, clean, balanced => by
    rw [identifiersOfArguments, allNamed_append] at named
    rw [bindArguments, List.append_eq_nil_iff] at clean
    simp only [balancedArguments, Bool.and_eq_true, or_and_left] at balanced
    have one := first.spoils spoiled known proper named.1 clean.1 balanced.1
    have more := others.spoils spoiled known proper named.2 clean.2 balanced.2
    exact ⟨.cons one.ty more.1, one.found.append more.2⟩

end

end Expressions

/-! ### Return paths -/

namespace Bound

/-- The check of what has spoiled types, against one that finds nothing: it comes to the same
about the end, and complains about `Any` at most. -/
structure PathsSpoiled (loose : Prop) (check check' : Bool × List Diagnostic) : Prop where
  ends : check'.1 = check.1
  others : check.2 = [] → ∀ d ∈ check'.2, loose ∧ d.BlamesAny

variable {loose : Prop}

theorem PathsSpoiled.same {check : Bool × List Diagnostic} : PathsSpoiled loose check check :=
  ⟨rfl, fun clean _ mem => absurd (clean ▸ mem) List.not_mem_nil⟩

theorem PathsSpoiled.returns {value value' : Expression} {expected : Ty} {span : Span}
    (typed : value.ty.Spoiled loose value'.ty) :
    PathsSpoiled loose ((Statement.returns (some value) span).checkPaths expected)
      ((Statement.returns (some value') span).checkPaths expected) := by
  refine ⟨rfl, fun clean d mem => ?_⟩
  rw [Statement.checkPaths, checkReturn] at clean mem
  simp only at clean mem
  have fits : value.ty.assignableTo expected = true := by
    split at clean
    · assumption
    · cases clean
  rcases typed.assignableTo .same fits with still | ⟨loosely, any⟩
  · rw [if_pos still] at mem
    cases mem
  · split at mem
    · cases mem
    · rw [any] at mem
      cases List.mem_singleton.mp mem
      exact ⟨loosely, .returned⟩

theorem PathsSpoiled.ifElse {first first' second second' : Bool × List Diagnostic}
    (one : PathsSpoiled loose first first') (two : PathsSpoiled loose second second') :
    PathsSpoiled loose (first.1 && second.1, first.2 ++ second.2)
      (first'.1 && second'.1, first'.2 ++ second'.2) := by
  refine ⟨by rw [one.ends, two.ends], fun clean d mem => ?_⟩
  obtain ⟨left, right⟩ := List.append_eq_nil_iff.mp clean
  exact (List.mem_append.mp mem).elim (one.others left d) (two.others right d)

theorem PathsSpoiled.cons {s s' : Statement} {rest rest' : List Statement} {expected : Ty}
    {behind : Bool} (one : PathsSpoiled loose (s.checkPaths expected) (s'.checkPaths expected))
    (more : ∀ behind, PathsSpoiled loose (checkPathsOfList expected behind [] rest)
      (checkPathsOfList expected behind [] rest')) :
    PathsSpoiled loose (checkPathsOfList expected behind [] (s :: rest))
      (checkPathsOfList expected behind [] (s' :: rest')) := by
  refine ⟨?_, fun clean d mem => ?_⟩
  · have alone : ∀ (statements : List Statement) {behind : Bool} {found : List Diagnostic},
        (checkPathsOfList expected behind found statements).1 =
          (checkPathsOfList expected behind [] statements).1 := by
      intro statements behind found
      rw [checkPathsOfList_eq]
    rw [checkPathsOfList, checkPathsOfList, alone rest', alone rest, one.ends]
    exact (more _).ends
  · obtain ⟨rfl, first, others⟩ := checkPathsOfList_cons_eq_nil clean
    rw [checkPathsOfList, checkPathsOfList_eq, one.ends] at mem
    rcases List.mem_append.mp mem with here | later
    · refine one.others first d ?_
      simpa [List.reverseAux_eq] using here
    · exact (more _).others others d later

end Bound

/-! ### Statements -/

section Statements

variable {loose : Prop} {r : Identifier} {m n : Nat} {b b' : Binder}

/-- The same names stand for symbols whose types are spoiled, `r` stands for none, and among
what was found it is reported `n` times. -/
structure Binder.Spoiled (loose : Prop) (r : Identifier) (n : Nat) (b b' : Binder) : Prop where
  scopes : b'.scopes = b.scopes
  symbols : b.symbols.Spoiled loose b'.symbols
  unknown : b.scopes.get? r.name = none
  jumps : b'.jumps = b.jumps
  found : Reports loose r n b'.found

/-- A type that is found by one binder is found by all. -/
theorem Binder.bindType_of_clean {b₁ : Binder} {name : Identifier} {ty : Ty}
    (run : b.bindType name = (ty, b₁)) (clean : b₁.found = []) :
    b₁ = b ∧ ∀ c : Binder, c.bindType name = (ty, c) := by
  unfold bindType at run
  split at run
  · rename_i missing
    cases run
    exact ⟨rfl, fun c => by rw [bindType, if_pos missing]⟩
  · rename_i named
    split at run
    · rename_i known
      cases run
      exact ⟨rfl, fun c => by rw [bindType, if_neg named, known]⟩
    · cases run
      exact absurd clean found_report_ne_nil

theorem Binder.bindType?_of_clean {b₁ : Binder} {name : Option Identifier} {ty : Option Ty}
    (run : b.bindType? name = (ty, b₁)) (clean : b₁.found = []) :
    b₁ = b ∧ ∀ c : Binder, c.bindType? name = (ty, c) := by
  cases name with
  | none =>
    cases run
    exact ⟨rfl, fun _ => rfl⟩
  | some name =>
    cases typed : b.bindType name with
    | mk =>
      rw [bindType?, typed] at run
      cases run
      obtain ⟨same, types⟩ := bindType_of_clean typed clean
      exact ⟨same, fun c => by rw [bindType?, types c]⟩

namespace Binder.Spoiled

theorem environment (h : b.Spoiled loose r n b') : b.environment.Spoiled loose r b'.environment :=
  ⟨h.scopes, h.symbols, h.unknown⟩

theorem note (h : b.Spoiled loose r m b') (nothing : List Finding) {findings : List Finding}
    (reports : Reports loose r n findings) :
    (b.note nothing).Spoiled loose r (m + n) (b'.note findings) :=
  { h with
    found := by
      rw [found_note, Nat.add_comm]
      exact reports.reverse.append h.found }

theorem noteNone (h : b.Spoiled loose r m b') (nothing : List Finding) {findings : List Finding}
    (reports : Reports loose r 0 findings) :
    (b.note nothing).Spoiled loose r m (b'.note findings) :=
  h.note nothing reports

theorem pushScope (h : b.Spoiled loose r n b') : b.pushScope.Spoiled loose r n b'.pushScope :=
  { h with
    scopes := by rw [Binder.pushScope, Binder.pushScope, h.scopes]
    unknown := (b.scopes.get?_push r.name).trans h.unknown }

theorem pushJump (h : b.Spoiled loose r n b') (context : JumpContext) :
    (b.pushJump context).Spoiled loose r n (b'.pushJump context) :=
  { h with jumps := by rw [Binder.pushJump, Binder.pushJump, h.jumps] }

theorem popJump (h : b.Spoiled loose r n b') : b.popJump.Spoiled loose r n b'.popJump :=
  { h with jumps := by rw [Binder.popJump, Binder.popJump, h.jumps] }

theorem alloc (h : b.Spoiled loose r n b') {symbol : Symbol} {ty : Ty}
    (typed : symbol.ty.Spoiled loose ty) :
    (b.alloc symbol).Spoiled loose r n (b'.alloc { symbol with ty }) :=
  { h with symbols := h.symbols.alloc typed }

theorem declare (h : b.Spoiled loose r n b') {taken : Bool} {name : Identifier}
    {symbol : SymbolId} (other : name.name ≠ r.name) :
    (b.declare taken name symbol).Spoiled loose r n (b'.declare taken name symbol) := by
  unfold Binder.declare
  split
  · exact h
  · exact { h with
      scopes := by rw [h.scopes]
      unknown := by
        rw [ScopeChain.get?_put, if_neg other]
        exact h.unknown }

/-- What stands inside a scope, a loop or a function has left the names around it alone. -/
theorem leave {outer outer' inner inner' : Binder} (h : outer.Spoiled loose r m outer')
    (inside : inner.Spoiled loose r n inner') (scopes : b.scopes = outer.scopes)
    (scopes' : b'.scopes = outer'.scopes) (symbols : b.symbols = inner.symbols)
    (symbols' : b'.symbols = inner'.symbols) (jumps : b.jumps = outer.jumps)
    (jumps' : b'.jumps = outer'.jumps) (found : Reports loose r n b'.found) :
    b.Spoiled loose r n b' where
  scopes := by rw [scopes, scopes', h.scopes]
  symbols := by
    rw [symbols, symbols']
    exact inside.symbols
  unknown := by
    rw [scopes]
    exact h.unknown
  jumps := by rw [jumps, jumps', h.jumps]
  found := found

theorem checkRedeclared (h : b.Spoiled loose r n b') {name : Identifier}
    (run : b.checkRedeclared name = (false, b)) : b'.checkRedeclared name = (false, b') := by
  unfold Binder.checkRedeclared at run ⊢
  rw [h.scopes]
  split at run
  · cases run
  · rename_i free
    rw [if_neg free]

theorem checkJump (h : b.Spoiled loose r n b') {span : Span} {keyword : String}
    (clean : (b.checkJump span keyword).found = []) :
    (b.checkJump span keyword).Spoiled loose r n (b'.checkJump span keyword) := by
  unfold Binder.checkJump at clean ⊢
  rw [h.jumps]
  split at clean
  · exact absurd clean found_report_ne_nil
  · rename_i inLoop
    split at clean
    · exact absurd clean found_report_ne_nil
    · rename_i inFunction
      rw [if_neg inLoop, if_neg inFunction, if_neg inLoop, if_neg inFunction]
      exact h

/-- Parameters are the same in both. -/
theorem bindParameters {b₁ : Binder} {seen : List String} {parameters : List Parameter}
    {params : List (SymbolId × String × Ty)} (h : b.Spoiled loose r n b')
    (run : b.bindParameters seen parameters = (params, b₁)) (clean : b₁.found = []) :
    ∃ b₁', b'.bindParameters seen parameters = (params, b₁') ∧ b₁.Spoiled loose r n b₁' := by
  induction parameters generalizing b b' seen params with
  | nil =>
    cases run
    exact ⟨b', rfl, h⟩
  | cons p rest ih =>
    rw [Binder.bindParameters] at run ⊢
    split at run
    · rename_i missing
      rw [if_pos missing]
      exact ih h run
    · rename_i named
      rw [if_neg named]
      cases typed : b.bindType p.typeName with
      | mk ty b₂ =>
        simp only [typed] at run
        obtain ⟨rfl, others⟩ := Prod.mk.inj run
        have made : Binder.bindParameters _ _ rest = (_, b₁) := Prod.ext rfl others
        have before := (bindParameters_eq made).1.clean clean
        change (ite _ _ _ : Binder).found = [] at before
        split at before
        · exact absurd before found_report_ne_nil
        · rename_i once
          obtain ⟨rfl, types⟩ := bindType_of_clean typed before
          simp only [types b', if_neg once] at others ⊢
          have more : (b₂.alloc ⟨p.name.name, ty, .parameter⟩).Spoiled loose r n
              (b'.alloc ⟨p.name.name, ty, .parameter⟩) := h.alloc .same
          obtain ⟨b₁', run', spoiled⟩ := ih more (Prod.ext rfl others)
          exact ⟨b₁', by rw [run', h.symbols.size], spoiled⟩

theorem declareParameters (h : b.Spoiled loose r n b') {params : List (SymbolId × String × Ty)}
    (others : ∀ p ∈ params, p.2.1 ≠ r.name) :
    (b.declareParameters params).Spoiled loose r n (b'.declareParameters params) := by
  induction params generalizing b b' with
  | nil => exact h
  | cons p _ ih =>
    obtain ⟨id, name, ty⟩ := p
    obtain ⟨other, more⟩ := List.forall_mem_cons.mp others
    rw [Binder.declareParameters, Binder.declareParameters, h.scopes]
    split
    · exact ih h more
    · refine ih ?_ more
      exact { h with
        scopes := rfl
        unknown := by
          rw [ScopeChain.get?_put, if_neg other]
          exact h.unknown }

theorem declareFunction (h : b.Spoiled loose r n b') {taken : Bool} {name : Identifier}
    {params : List (SymbolId × String × Ty)} {result : Ty} (other : name.name ≠ r.name) :
    (b.declareFunction taken name params result).Spoiled loose r n
      (b'.declareFunction taken name params result) := by
  unfold Binder.declareFunction
  rw [h.symbols.size]
  exact (h.alloc .same).declare other

theorem enterFunction (h : b.Spoiled loose r n b') {taken : Bool} {name : Identifier}
    {params : List (SymbolId × String × Ty)} {result : Ty} (other : name.name ≠ r.name)
    (others : ∀ p ∈ params, p.2.1 ≠ r.name) :
    (b.enterFunction taken name params result).Spoiled loose r n
      (b'.enterFunction taken name params result) :=
  ((((h.declareFunction other).pushJump .function).pushScope).declareParameters others).pushScope

/-- An expression keeps two binders alike, up to what its replaced parts report. -/
theorem bindExpression {e e' : Expression} {x x' : Bound.Expression} {b₁ b₁' : Binder}
    (h : b.Spoiled loose r m b') (known : r.isMissing = false) (proper : ProperSymbols b.symbols)
    (replaces : e.Replaces r n e') (named : AllNamed e.identifiers)
    (run : b.bindExpression e = (x, b₁)) (run' : b'.bindExpression e' = (x', b₁'))
    (clean : b₁.found = []) (balanced : loose ∨ e'.balanced b'.environment = true) :
    b₁ = b ∧ x.isError = false ∧ x.ty.Spoiled loose x'.ty ∧ b.Spoiled loose r (m + n) b₁' := by
  obtain ⟨rfl, rfl⟩ := bindExpression_eq run
  obtain ⟨rfl, rfl⟩ := bindExpression_eq run'
  have nothing := (found_note_eq_nil.mp clean).1
  have spoils := replaces.spoils h.environment known proper named nothing balanced
  refine ⟨by rw [nothing]; rfl, Expression.isError_eq_false proper named nothing, spoils.ty, ?_⟩
  exact h.note [] spoils.found

end Binder.Spoiled

/-- Where the returns of a function are in order, spoiled ones are complained about at most for
being `Any`. -/
theorem Reports.leaveFunction {body body' : List Bound.Statement} {result : Ty} {bodySpan : Span}
    (reports : Reports loose r n b.found)
    (paths : Bound.PathsSpoiled loose (Bound.checkPathsOfList result false [] body)
      (Bound.checkPathsOfList result false [] body')) (clean : (Bound.checkBody result body).2 = [])
    (ok : (Bound.checkBody result body).1.isOk = true) :
    Reports loose r n (b.leaveFunction result body' bodySpan).found := by
  have status : (Bound.checkBody result body').1 = (Bound.checkBody result body).1 := by
    unfold Bound.checkBody Bound.checkList
    simp only [paths.ends]
  have found : (b.leaveFunction result body' bodySpan).found =
      ((Bound.checkBody result body').2.map Finding.problem).reverse ++ b.found := by
    unfold Binder.leaveFunction
    simp only [status, ok, if_true]
    exact found_note ..
  rw [found, ← Nat.zero_add n]
  exact (Reports.problems (paths.others clean)).reverse.append reports

/-- Names that are there, and none of them is `r`. -/
def Apart (r : Identifier) (identifiers : List Identifier) : Prop :=
  ∀ i ∈ identifiers, i.isMissing = false ∧ i.name ≠ r.name

theorem apart_cons {i : Identifier} {rest : List Identifier} :
    Apart r (i :: rest) ↔ (i.isMissing = false ∧ i.name ≠ r.name) ∧ Apart r rest :=
  List.forall_mem_cons

theorem apart_append {first second : List Identifier} :
    Apart r (first ++ second) ↔ Apart r first ∧ Apart r second :=
  List.forall_mem_append

theorem Apart.named {identifiers : List Identifier} (apart : Apart r identifiers) :
    AllNamed identifiers := fun i mem => (apart i mem).1

theorem Apart.parameters {b₁ : Binder} {seen : List String} {parameters : List Parameter}
    {params : List (SymbolId × String × Ty)}
    (apart : Apart r (parameters.flatMap Parameter.identifiers))
    (run : b.bindParameters seen parameters = (params, b₁)) : ∀ p ∈ params, p.2.1 ≠ r.name := by
  intro p mem
  have name : p.2.1 ∈ parameterNames parameters :=
    bindParameters_names run ▸ List.mem_map_of_mem mem
  obtain ⟨q, inside, same⟩ := List.mem_map.mp (List.mem_filter.mp name).1
  rw [← same]
  exact (apart q.name (List.mem_flatMap.mpr ⟨q, inside, List.mem_cons_self⟩)).2

mutual

/-- A statement some of whose expressions are replaced is bound like the statement itself, but
for spoiled types. -/
theorem Statement.Replaces.spoils {m n s' b b₁ b' b₁' t t'} (known : r.isMissing = false)
    {s : Statement} :
    s.Replaces r n s' → s.Binds b t b₁ → s'.Binds b' t' b₁' → b.Spoiled loose r m b' →
      Apart r s.identifiers → ProperSymbols b.symbols → b₁.found = [] →
      loose ∨ s'.balanced b' = true →
      b₁.Spoiled loose r (m + n) b₁' ∧
        ∀ expected, Bound.PathsSpoiled loose (t.checkPaths expected) (t'.checkPaths expected)
  | .function body, .function redeclared made types inner,
      .function redeclared' made' types' inner', spoiled, apart, proper, clean, balanced => by
    simp only [Statement.identifiers, apart_cons, apart_append] at apart
    obtain ⟨⟨_, other⟩, parameterNames, resultName, bodyNames⟩ := apart
    simp only [Statement.balanced, redeclared', made', types'] at balanced
    obtain ⟨ending, returns, ok⟩ := leaveFunction_clean clean
    have before := (found_enterFunction ..).symm.trans (inner.grows.clean ending)
    obtain ⟨_, _, entered⟩ := proper_enterFunction redeclared made types before
      (allNamed_append.mpr ⟨parameterNames.named, resultName.named⟩) proper
    -- Both runs come to the same function, with the same parameters.
    obtain ⟨rfl, typed⟩ := bindType?_of_clean types before
    obtain ⟨rfl, rfl⟩ := checkRedeclared_clean redeclared ((bindParameters_eq made).1.clean before)
    obtain ⟨rfl, rfl⟩ :=
      Prod.mk.inj ((spoiled.checkRedeclared redeclared).symm.trans redeclared')
    obtain ⟨_, same, second⟩ := spoiled.bindParameters made before
    obtain ⟨rfl, rfl⟩ := Prod.mk.inj (same.symm.trans made')
    obtain ⟨rfl, rfl⟩ := Prod.mk.inj ((typed _).symm.trans types')
    obtain ⟨inside, paths⟩ := body.spoils known inner inner'
      (second.enterFunction other (parameterNames.parameters made)) bodyNames entered ending
      balanced
    obtain ⟨grows, scopes⟩ := leaveFunction_grows inner.grows
    obtain ⟨grows', scopes'⟩ := leaveFunction_grows inner'.grows
    refine ⟨(second.declareFunction other).leave inside scopes scopes' (symbols_leaveFunction ..)
      (symbols_leaveFunction ..) grows.jumps grows'.jumps ?_, fun expected => .same⟩
    exact inside.found.leaveFunction (paths _ false) returns ok
  | .declare value, .declare redeclared types bound, .declare redeclared' types' bound', spoiled,
      apart, proper, clean, balanced => by
    simp only [Statement.identifiers, apart_cons, apart_append] at apart
    obtain ⟨⟨_, other⟩, _, valueNames⟩ := apart
    obtain ⟨fits, before⟩ := found_note_eq_nil.mp clean
    rw [declare_found] at before
    have middle : Binder.found _ = [] :=
      (found_note_eq_nil.mp ((bindExpression_eq bound).2 ▸ before)).2
    obtain ⟨rfl, typed⟩ := bindType?_of_clean types middle
    obtain ⟨rfl, rfl⟩ := checkRedeclared_clean redeclared middle
    obtain ⟨rfl, rfl⟩ :=
      Prod.mk.inj ((spoiled.checkRedeclared redeclared).symm.trans redeclared')
    obtain ⟨rfl, rfl⟩ := Prod.mk.inj ((typed _).symm.trans types')
    obtain ⟨rfl, _, valueTyped, first⟩ := spoiled.bindExpression known proper value
      valueNames.named bound bound' before balanced
    have place : ∀ explicit : Option Ty,
        (explicit.getD _).Spoiled loose (explicit.getD _) := fun explicit => by
      cases explicit with
      | none => exact valueTyped
      | some => exact .same
    rw [first.symbols.size]
    exact ⟨((first.alloc (place _)).declare other).noteNone _
      (.checkAssignable valueTyped (place _) fits), fun expected => .same⟩
  | .ifThen condition yes, .ifThen tests inner, .ifThen tests' inner', spoiled, apart, proper,
      clean, balanced => by
    rw [Statement.identifiers, apart_append] at apart
    obtain ⟨boolean, before⟩ := found_note_eq_nil.mp clean
    simp only [Statement.balanced, tests', Bool.and_eq_true, or_and_left] at balanced
    obtain ⟨rfl, sound, typed, first⟩ := spoiled.bindExpression known proper condition
      apart.1.named tests tests' (inner.grows.clean before) balanced.1
    obtain ⟨second, paths⟩ := yes.spoils known inner inner' first apart.2 proper before balanced.2
    rw [Nat.add_assoc] at second
    exact ⟨second.noteNone _ (.checkCondition typed sound boolean), fun expected =>
      ⟨rfl, (paths expected).others⟩⟩
  | .ifElse condition yes no, .ifElse tests one two, .ifElse tests' one' two', spoiled, apart,
      proper, clean, balanced => by
    rw [Statement.identifiers, apart_append, apart_append] at apart
    obtain ⟨boolean, before⟩ := found_note_eq_nil.mp clean
    simp only [Statement.balanced, tests', one'.bind_eq, Bool.and_eq_true, or_and_left]
      at balanced
    have middle := two.grows.clean before
    obtain ⟨rfl, sound, typed, first⟩ := spoiled.bindExpression known proper condition
      apart.1.named tests tests' (one.grows.clean middle) balanced.1.1
    obtain ⟨second, paths⟩ := yes.spoils known one one' first apart.2.1 proper middle
      balanced.1.2
    obtain ⟨third, paths'⟩ := no.spoils known two two' second apart.2.2
      (one.properSymbols apart.2.1.named middle proper) before balanced.2
    rw [Nat.add_assoc m, Nat.add_assoc m] at third
    exact ⟨third.noteNone _ (.checkCondition typed sound boolean), fun expected =>
      (paths expected).ifElse (paths' expected)⟩
  | .whileLoop condition body, .whileLoop tests inner, .whileLoop tests' inner', spoiled, apart,
      proper, clean, balanced => by
    rw [Statement.identifiers, apart_append] at apart
    obtain ⟨boolean, before⟩ := found_note_eq_nil.mp clean
    simp only [Statement.balanced, tests', Bool.and_eq_true, or_and_left] at balanced
    obtain ⟨rfl, sound, typed, first⟩ := spoiled.bindExpression known proper condition
      apart.1.named tests tests' (inner.grows.clean before) balanced.1
    obtain ⟨second, paths⟩ := body.spoils known inner inner' (first.pushJump .loop) apart.2 proper
      before balanced.2
    rw [Nat.add_assoc] at second
    exact ⟨second.popJump.noteNone _ (.checkCondition typed sound boolean), fun expected =>
      ⟨rfl, (paths expected).others⟩⟩
  | .doWhile body condition, .doWhile inner tests, .doWhile inner' tests', spoiled, apart, proper,
      clean, balanced => by
    rw [Statement.identifiers, apart_append] at apart
    obtain ⟨boolean, before⟩ := found_note_eq_nil.mp clean
    simp only [Statement.balanced, inner'.bind_eq, Bool.and_eq_true, or_and_left] at balanced
    have middle : Binder.found _ = [] :=
      (found_note_eq_nil.mp ((bindExpression_eq tests).2 ▸ before)).2
    obtain ⟨first, paths⟩ := body.spoils known inner inner' (spoiled.pushJump .loop) apart.1
      proper middle balanced.1
    obtain ⟨rfl, sound, typed, second⟩ := first.popJump.bindExpression known
      (inner.properSymbols apart.1.named middle proper) condition apart.2.named tests tests'
      before balanced.2
    rw [Nat.add_assoc] at second
    exact ⟨second.noteNone _ (.checkCondition typed sound boolean), fun expected =>
      ⟨rfl, (paths expected).others⟩⟩
  | .block statements, .block inner, .block inner', spoiled, apart, proper, clean, balanced => by
    obtain ⟨inside, paths⟩ := statements.spoils known inner inner' spoiled.pushScope apart proper
      clean balanced
    refine ⟨spoiled.leave inside inner.grows.scopes_popScope inner'.grows.scopes_popScope rfl rfl
      inner.grows.jumps inner'.grows.jumps inside.found, fun expected => paths expected false⟩
  | .returnsUnit, .returnsUnit, .returnsUnit, spoiled, _, _, _, _ => by
    exact ⟨spoiled, fun expected => .same⟩
  | .returns value, .returns bound, .returns bound', spoiled, apart, proper, clean, balanced => by
    obtain ⟨rfl, _, typed, first⟩ := spoiled.bindExpression known proper value apart.named bound
      bound' clean balanced
    exact ⟨first, fun expected => .returns typed⟩
  | .breakLoop, .breakLoop, .breakLoop, spoiled, _, _, clean, _
  | .continueLoop, .continueLoop, .continueLoop, spoiled, _, _, clean, _ => by
    exact ⟨spoiled.checkJump clean, fun expected => .same⟩
  | .print value, .print bound, .print bound', spoiled, apart, proper, clean, balanced => by
    obtain ⟨rfl, _, _, first⟩ := spoiled.bindExpression known proper value apart.named bound
      bound' clean balanced
    exact ⟨first, fun expected => .same⟩
  | .expression value, .expression bound, .expression bound', spoiled, apart, proper, clean,
      balanced => by
    obtain ⟨rfl, _, _, first⟩ := spoiled.bindExpression known proper value apart.named bound
      bound' clean balanced
    exact ⟨first, fun expected => .same⟩

theorem StatementsReplace.spoils {m n statements statements' b b₁ b' b₁' ts ts'}
    (known : r.isMissing = false) :
    StatementsReplace r n statements statements' → BindsList statements b ts b₁ →
      BindsList statements' b' ts' b₁' → b.Spoiled loose r m b' →
      Apart r (identifiersOfList statements) → ProperSymbols b.symbols → b₁.found = [] →
      loose ∨ balancedList statements' b' = true →
      b₁.Spoiled loose r (m + n) b₁' ∧
        ∀ expected behind, Bound.PathsSpoiled loose (Bound.checkPathsOfList expected behind [] ts)
          (Bound.checkPathsOfList expected behind [] ts')
  | .nil, .nil, .nil, spoiled, _, _, _, _ => by
    exact ⟨spoiled, fun _ _ => .same⟩
  | .cons first others, .cons one more, .cons one' more', spoiled, apart, proper, clean,
      balanced => by
    rw [identifiersOfList, apart_append] at apart
    simp only [balancedList, one'.bind_eq, Bool.and_eq_true, or_and_left] at balanced
    have middle := more.grows.clean clean
    obtain ⟨second, paths⟩ := first.spoils known one one' spoiled apart.1 proper middle balanced.1
    obtain ⟨third, paths'⟩ := others.spoils known more more' second apart.2
      (one.properSymbols apart.1.named middle proper) clean balanced.2
    rw [Nat.add_assoc] at third
    exact ⟨third, fun expected behind => (paths expected).cons (paths' expected)⟩

end

end Statements

/-! ### Files -/

/-- How often the unknown name is reported, and what else can be. -/
theorem Reports.diagnostics {loose : Prop} {r : Identifier} {n : Nat} {b : Binder}
    (reports : Reports loose r n b.found) :
    b.diagnostics.count (.unknown r) = n ∧
      ∀ d ∈ b.diagnostics, d = .unknown r ∨ loose ∧ d.BlamesAny := by
  constructor
  · rw [Binder.diagnostics, List.count_filterMap, ← reports.count, ← List.count_reverse, List.count]
    refine List.countP_congr fun f _ => ?_
    cases f with
    | problem => simp
    | dangling => simp
  · intro d mem
    obtain ⟨f, inside, same⟩ := List.mem_filterMap.mp mem
    rcases reports.others f (List.mem_reverse.mp inside) with rfl | ⟨loosely, d', rfl, blames⟩
    · cases same
      exact .inl rfl
    · cases same
      exact .inr ⟨loosely, blames⟩

/-- A file that was in order reports the unknown name as often as it was put in place of an
expression. -/
theorem StatementsReplace.diagnostics {loose : Prop} {r : Identifier} {n : Nat}
    {file file' : SourceFile} (replaces : StatementsReplace r n file.statements file'.statements)
    (known : r.isMissing = false) (apart : Apart r file.identifiers) (clean : file.bind.2 = [])
    (balanced : loose ∨ file'.balanced = true) :
    file'.bind.2.count (.unknown r) = n ∧
      ∀ d ∈ file'.bind.2, d = .unknown r ∨ loose ∧ d.BlamesAny := by
  obtain ⟨b, run, _, found, returns⟩ := SourceFile.binds_of_clean clean
  obtain ⟨bound', b', run', _, diagnostics⟩ := file'.binds
  have start : Binder.new.Spoiled loose r 0 Binder.new :=
    ⟨rfl, ⟨rfl, fun known => ⟨_, known, .same⟩⟩, rfl, rfl, .nil⟩
  have empty : ProperSymbols Binder.new.symbols := fun _ mem => nomatch mem
  obtain ⟨spoiled, paths⟩ := replaces.spoils known run run' start apart empty found balanced
  rw [Nat.zero_add] at spoiled
  have reports := spoiled.noteNone [] (.problems ((paths .unit false).others returns))
  rw [diagnostics]
  exact reports.found.diagnostics

/-- One expression of a file that is in order is replaced by an unknown name. The name is
reported once, and whatever else is reported is a complaint about a value of type `Any`. Where
no conditional expression has one branch in error and one that is not, nothing else is. -/
theorem SourceFile.unknown_name_reported {file changed : SourceFile} {r : Identifier}
    (named : ∀ i ∈ file.identifiers, i.name ≠ "") (clean : file.bind.2 = [])
    (replaced : StatementsReplace r 1 file.statements changed.statements) (known : r.name ≠ "")
    (other : ∀ i ∈ file.identifiers, i.name ≠ r.name) :
    changed.bind.2.count (.on r.span .unknownName [r.name]) = 1 ∧
      (∀ d ∈ changed.bind.2, d = .on r.span .unknownName [r.name] ∨ d.BlamesAny) ∧
      (changed.balanced = true → changed.bind.2 = [.on r.span .unknownName [r.name]]) := by
  have apart : Apart r file.identifiers := fun i mem =>
    ⟨allNamed_of_ne named i mem, other i mem⟩
  have name : r.isMissing = false := by simpa [Identifier.isMissing] using known
  obtain ⟨once, others⟩ := replaced.diagnostics name apart clean (.inl trivial)
  refine ⟨once, fun d mem => (others d mem).imp_right And.right, fun balanced => ?_⟩
  have only : ∀ d ∈ changed.bind.2, d = .unknown r ∨ False ∧ d.BlamesAny :=
    (replaced.diagnostics name apart clean (.inr balanced)).2
  have all : ∀ d ∈ changed.bind.2, d = .unknown r := fun d mem =>
    (only d mem).resolve_right fun no => no.1
  rw [List.eq_replicate_of_mem all] at once ⊢
  rw [List.count_replicate_self] at once
  rw [once]
  rfl

open Unplaced in
/-- The variable `m` is in error if its value is, and so are both branches that depend on it:
`fun size(n: Int): Int { val m = … return m > 0 ? m : 0 - m } print size(2)`. -/
def sizeFile (value : Expression) : SourceFile :=
  source "size" [
    function "size" [("n", "Int")] "Int"
      [val "m" value,
      give (.ternary (binary .greater (use "m") (int 0)) (use "m")
        (binary .minus (int 0) (use "m")) default)],
    print (call "size" [int 2])]

theorem sizeFile_reported_once :
    let file := sizeFile (.binary (.reference ⟨"n", default⟩) .plus default
      (.literal (.int 1) default) default)
    (∀ i ∈ file.identifiers, i.name ≠ "" ∧ i.name ≠ "g") ∧ file.bind.2 = [] ∧
      StatementsReplace ⟨"g", ⟨7, 1⟩⟩ 1 file.statements
        (sizeFile (.reference ⟨"g", ⟨7, 1⟩⟩)).statements ∧
      (sizeFile (.reference ⟨"g", ⟨7, 1⟩⟩)).bind.2 = [.on ⟨7, 1⟩ .unknownName ["g"]] := by
  intro file
  have names : ∀ i ∈ file.identifiers, i.name ≠ "" ∧ i.name ≠ "g" := by decide +kernel
  have clean : file.bind.2 = [] := by decide +kernel
  have replaced : StatementsReplace ⟨"g", ⟨7, 1⟩⟩ _ file.statements
      (sizeFile (.reference ⟨"g", ⟨7, 1⟩⟩)).statements :=
    .cons (.function (.cons (.declare .here) (.cons (.returns
      (.ternary (.binary .reference .literal) .reference (.binary .literal .reference))) .nil)))
      (.cons (.print (.call .reference (.cons .literal .nil))) .nil)
  have balanced : (sizeFile (.reference ⟨"g", ⟨7, 1⟩⟩)).balanced = true := by decide +kernel
  obtain ⟨_, _, only⟩ := SourceFile.unknown_name_reported (fun i mem => (names i mem).1) clean
    replaced (by decide) fun i mem => (names i mem).2
  exact ⟨names, clean, replaced, only balanced⟩

open Unplaced in
/-- One branch of the value can be put in error: `val x: Int = true ? … : 1`. -/
def choiceFile (value : Expression) : SourceFile :=
  source "choice" [.declare (name "x") (name "Int") true
    (.ternary (boolean true) value (int 1) ⟨0, 8⟩) default]

theorem choiceFile_reported_twice : let file := choiceFile (.literal (.int 2) default)
    (∀ i ∈ file.identifiers, i.name ≠ "" ∧ i.name ≠ "g") ∧ file.bind.2 = [] ∧
      StatementsReplace ⟨"g", ⟨5, 1⟩⟩ 1 file.statements
        (choiceFile (.reference ⟨"g", ⟨5, 1⟩⟩)).statements ∧
      (choiceFile (.reference ⟨"g", ⟨5, 1⟩⟩)).bind.2 =
        [.on ⟨5, 1⟩ .unknownName ["g"], .on ⟨0, 8⟩ .notAssignable ["Any", "Int"]] := by
  intro file
  have replaced : StatementsReplace ⟨"g", ⟨5, 1⟩⟩ _ file.statements
      (choiceFile (.reference ⟨"g", ⟨5, 1⟩⟩)).statements :=
    .cons (.declare (.ternary .literal .here .literal)) .nil
  exact ⟨by decide +kernel, by decide +kernel, replaced, by decide +kernel⟩

end Bindery
