import Bindery.Binder

/-!
What binding an expression does to a binder.

Binding threads its state through an expression as through a statement. What becomes of an
expression depends on the open scopes and the symbols alone (`Environment`), and neither of them
changes on the way: `Expression.bind` gives the bound expression with what is found in it, and
`Binder.bindExpression_eq_bind` says that a binder comes out of an expression with these findings
and nothing else.
-/

namespace Bindery

/-- What expressions are bound against: the open scopes and the symbols so far. -/
structure Environment where
  scopes : ScopeChain
  symbols : SymbolTable
deriving Inhabited

/-- A reference to a name. A missing name has already been complained about. -/
def bindReference (env : Environment) (name : Identifier) : Bound.Expression × List Finding :=
  if name.isMissing then (.error name.span, [])
  else
    match env.scopes.get? name.name with
    | none => (.error name.span, [.on name.span .unknownName [name.name]])
    | some id =>
      match env.symbols.get? id with
      | none => (.error name.span, [.dangling id])
      | some symbol => (.reference id symbol.ty name.span, [])

mutual

def Expression.bind (env : Environment) : Expression → Bound.Expression × List Finding
  | .literal value span => (.literal value span, [])
  | .reference name => bindReference env name
  | .assignment target value span =>
    let t := target.bind env
    let v := value.bind env
    match assignable? env.symbols t.1 with
    | some (id, symbol) =>
      let readOnly :=
        if symbol.isReadOnly then [Finding.on t.1.span .readOnlyTarget [symbol.name]] else []
      (.assignment id v.1 symbol.ty span,
        t.2 ++ readOnly ++ v.2 ++ checkAssignable v.1 symbol.ty)
    | none =>
      let invalid := if t.1.isError then [] else [Finding.on t.1.span .invalidTarget []]
      (.error span, t.2 ++ v.2 ++ invalid)
  | .binary left operator operatorSpan right span =>
    let l := left.bind env
    let r := right.bind env
    if l.1.isError || r.1.isError then (.error span, l.2 ++ r.2)
    else
      match BinaryOperation.resolve? l.1.ty operator r.1.ty with
      | some (operation, ty) => (.binary operation l.1 r.1 ty span, l.2 ++ r.2)
      | none =>
        (.error span, l.2 ++ r.2 ++
          [.on operatorSpan .undefinedBinary [operator.token, l.1.ty.text, r.1.ty.text]])
  | .unary operator operatorSpan operand span =>
    let o := operand.bind env
    if o.1.isError then (.error span, o.2)
    else
      match UnaryOperation.resolve? operator o.1.ty with
      | some (operation, ty) => (.unary operation o.1 ty span, o.2)
      | none =>
        (.error span, o.2 ++ [.on operatorSpan .undefinedUnary [operator.token, o.1.ty.text]])
  | .parenthesized inner span =>
    let i := inner.bind env
    (.parenthesized i.1 span, i.2)
  | .call target arguments argumentsSpan span =>
    let t := target.bind env
    let as := bindArguments env arguments
    match t.1.ty.signature? with
    | some (parameters, result) =>
      (.call t.1 as.1 result span,
        t.2 ++ as.2 ++ checkArgumentCount argumentsSpan parameters.length as.1.length ++
          checkArguments as.1 parameters)
    | none =>
      let notCallable :=
        if t.1.isError then [] else [Finding.on t.1.span .notCallable [t.1.ty.text]]
      (.error span, t.2 ++ as.2 ++ notCallable)
  | .ternary condition yes no span =>
    let c := condition.bind env
    let y := yes.bind env
    let n := no.bind env
    let ty := if y.1.ty = n.1.ty then y.1.ty else .any
    (.ternary c.1 y.1 n.1 ty span, c.2 ++ y.2 ++ n.2 ++ checkCondition c.1)

def bindArguments (env : Environment) : List Expression → List Bound.Expression × List Finding
  | [] => ([], [])
  | e :: rest =>
    let first := e.bind env
    let others := bindArguments env rest
    (first.1 :: others.1, first.2 ++ others.2)

end

/-- What can be stored to is a reference to a variable. -/
theorem assignable?_eq_some {table : SymbolTable} {target : Bound.Expression} {id : SymbolId}
    {symbol : Symbol} :
    assignable? table target = some (id, symbol) ↔
      (∃ ty span, target = .reference id ty span) ∧ table.get? id = some symbol ∧
        symbol.isVariable = true := by
  cases target with
  | reference =>
    simp only [assignable?, Bound.Expression.reference.injEq]
    grind
  | _ => simp [assignable?]

namespace Binder

def environment (b : Binder) : Environment := ⟨b.scopes, b.symbols⟩

@[simp] theorem environment_note (b : Binder) (findings : List Finding) :
    (b.note findings).environment = b.environment := rfl

@[simp] theorem symbols_note (b : Binder) (findings : List Finding) :
    (b.note findings).symbols = b.symbols := rfl

@[simp] theorem note_nil (b : Binder) : b.note [] = b := rfl

/-- Notes taken one after the other are notes taken at once. -/
theorem note_note (b : Binder) (findings others : List Finding) :
    (b.note findings).note others = b.note (findings ++ others) := by
  simp only [note, List.reverseAux_eq, List.reverse_append, List.append_assoc]

/-- A reference only notes what is found in it. -/
theorem bindVariable_eq (b : Binder) (name : Identifier) :
    b.bindVariable name =
      ((bindReference b.environment name).1, b.note (bindReference b.environment name).2) := by
  unfold bindVariable bindReference environment
  split
  · rfl
  · cases b.scopes.get? name.name with
    | none => rfl
    | some id =>
      cases found : b.symbols.get? id with
      | none => simp only [found]
      | some => simp only [found, note_nil]

mutual

/-- An expression leaves the binder as it was, but for what is found in it. -/
theorem bindExpression_eq_bind (b : Binder) :
    ∀ e : Expression, b.bindExpression e =
      ((e.bind b.environment).1, b.note (e.bind b.environment).2)
  | .literal .. => by
    rw [bindExpression, Expression.bind, note_nil]
  | .reference _ => by
    rw [bindExpression, Expression.bind, bindVariable_eq]
  | .assignment target value _ => by
    rw [bindExpression, Expression.bind, bindExpression_eq_bind b target]
    have symbols : b.environment.symbols = b.symbols := rfl
    cases stored : assignable? b.symbols (target.bind b.environment).1 with
    | none =>
      simp only [symbols, symbols_note, stored, bindExpression_eq_bind _ value, environment_note,
        note_note, report]
      cases (target.bind b.environment).1.isError with
      | true => simp
      | false => simp
    | some found =>
      simp only [symbols, symbols_note, stored, report]
      cases found.2.isReadOnly with
      | true | false => simp [bindExpression_eq_bind _ value, note_note]
  | .binary left operator _ right _ => by
    rw [bindExpression, Expression.bind, bindExpression_eq_bind b left]
    simp only [bindExpression_eq_bind _ right, environment_note, note_note, report]
    split
    · rfl
    · cases BinaryOperation.resolve? (left.bind b.environment).1.ty operator
        (right.bind b.environment).1.ty <;> rfl
  | .unary operator _ operand _ => by
    rw [bindExpression, Expression.bind, bindExpression_eq_bind b operand]
    simp only [note_note, report]
    split
    · rfl
    · cases UnaryOperation.resolve? operator (operand.bind b.environment).1.ty <;> rfl
  | .parenthesized inner _ => by
    rw [bindExpression, Expression.bind, bindExpression_eq_bind b inner]
  | .call target arguments .. => by
    rw [bindExpression, Expression.bind, bindExpression_eq_bind b target]
    simp only [bindExpressions_eq_bind _ arguments, environment_note, note_note, report]
    cases (target.bind b.environment).1.ty.signature? with
    | some => rfl
    | none =>
      cases (target.bind b.environment).1.isError with
      | true => simp
      | false => simp
  | .ternary condition yes no _ => by
    rw [bindExpression, Expression.bind, bindExpression_eq_bind b condition]
    simp only [bindExpression_eq_bind _ yes, bindExpression_eq_bind _ no, environment_note,
      note_note]

theorem bindExpressions_eq_bind (b : Binder) :
    ∀ es : List Expression, b.bindExpressions es =
      ((bindArguments b.environment es).1, b.note (bindArguments b.environment es).2)
  | [] => by
    rw [bindExpressions, bindArguments, note_nil]
  | e :: rest => by
    rw [bindExpressions, bindArguments, bindExpression_eq_bind b e]
    simp only [bindExpressions_eq_bind _ rest, environment_note, note_note]

end

end Binder

end Bindery
