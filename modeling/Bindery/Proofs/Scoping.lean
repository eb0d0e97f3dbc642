import Bindery.Proofs.Binding

/-!
Scoping of bound programs.

A bound statement is in scope where every symbol that it refers to is known at that place
and every jump out of a loop stands in a loop of its own function (`Statement.InScope`).
The body of a function knows the function and its parameters; a statement knows what the
statements before it declare. Binding without findings leads to such statements
(`Statement.Binds.inScope`): names that can be seen belong to known symbols, and the jump
contexts of the binder say whether the place is in a loop.
-/

namespace Bindery.Bound

mutual

def Expression.InScope (known : List SymbolId) : Expression → Prop
  | .literal .. => True
  | .reference s .. => s ∈ known
  | .assignment s value .. => s ∈ known ∧ value.InScope known
  | .binary _ left right .. => left.InScope known ∧ right.InScope known
  | .unary _ operand .. => operand.InScope known
  | .parenthesized inner _ => inner.InScope known
  | .call target arguments .. => target.InScope known ∧ ArgumentsInScope known arguments
  | .ternary condition yes no .. =>
    condition.InScope known ∧ yes.InScope known ∧ no.InScope known
  | .error _ => True

def ArgumentsInScope (known : List SymbolId) : List Expression → Prop
  | [] => True
  | x :: rest => x.InScope known ∧ ArgumentsInScope known rest

end

mutual

/-- Every symbol of the statement is known at its place, and it leaves a loop only if it
stands in one. -/
def Statement.InScope (inLoop : Bool) (known : List SymbolId) : Statement → Prop
  | .function f parameters body .. => ListInScope false (parameters ++ f :: known) body
  | .declare _ value _ => value.InScope known
  | .ifThen condition yes _ => condition.InScope known ∧ yes.InScope inLoop known
  | .ifElse condition yes no _ =>
    condition.InScope known ∧ yes.InScope inLoop known ∧
      no.InScope inLoop (yes.declares ++ known)
  | .whileLoop condition body _ => condition.InScope known ∧ body.InScope true known
  | .doWhile body condition _ =>
    body.InScope true known ∧ condition.InScope (body.declares ++ known)
  | .block statements _ => ListInScope inLoop known statements
  | .returns none _ => True
  | .returns (some value) _ => value.InScope known
  | .breakLoop _ => inLoop = true
  | .continueLoop _ => inLoop = true
  | .print value _ => value.InScope known
  | .expression value _ => value.InScope known

def ListInScope (inLoop : Bool) (known : List SymbolId) : List Statement → Prop
  | [] => True
  | s :: rest => s.InScope inLoop known ∧ ListInScope inLoop (s.declares ++ known) rest

end

end Bindery.Bound

namespace Bindery

open Binder

/-! ### Expressions -/

/-- Every name that can be seen belongs to a known symbol. -/
def ScopeChain.Sees (c : ScopeChain) (known : List SymbolId) : Prop :=
  ∀ name id, c.get? name = some id → id ∈ known

variable {env : Environment} {known : List SymbolId}

mutual

/-- A bound expression refers to what is visible. -/
theorem Expression.bind_inScope (sees : env.scopes.Sees known) :
    ∀ e : Expression, (e.bind env).1.InScope known
  | .literal .. => trivial
  | .reference _ => by
    rw [Expression.bind, bindReference]
    split
    · exact trivial
    · split
      · exact trivial
      · rename_i id seen
        split
        · exact trivial
        · exact sees _ _ seen
  | .assignment target value _ => by
    have first := target.bind_inScope sees
    rw [Expression.bind]
    simp only
    cases found : assignable? env.symbols (target.bind env).1 with
    | none => exact trivial
    | some result =>
      obtain ⟨id, symbol⟩ := result
      refine ⟨?_, value.bind_inScope sees⟩
      obtain ⟨⟨_, _, same⟩, _⟩ := assignable?_eq_some.mp found
      rw [same] at first
      exact first
  | .binary left _ _ right _ => by
    rw [Expression.bind]
    split
    · exact trivial
    · split
      · exact ⟨left.bind_inScope sees, right.bind_inScope sees⟩
      · exact trivial
  | .unary _ _ operand _ => by
    rw [Expression.bind]
    split
    · exact trivial
    · split
      · exact operand.bind_inScope sees
      · exact trivial
  | .parenthesized inner _ => inner.bind_inScope sees
  | .call target arguments .. => by
    rw [Expression.bind]
    simp only
    split
    · exact ⟨target.bind_inScope sees, bindArguments_inScope sees arguments⟩
    · exact trivial
  | .ternary condition yes no _ =>
    ⟨condition.bind_inScope sees, yes.bind_inScope sees,
      no.bind_inScope sees⟩

theorem bindArguments_inScope (sees : env.scopes.Sees known) :
    ∀ arguments : List Expression, Bound.ArgumentsInScope known (bindArguments env arguments).1
  | [] => trivial
  | e :: rest => ⟨e.bind_inScope sees, bindArguments_inScope sees rest⟩

end

theorem Binder.bindExpression_inScope {b b' : Binder} {e : Expression} {e' : Bound.Expression}
    {known : List SymbolId} (run : b.bindExpression e = (e', b')) (sees : b.scopes.Sees known) :
    e'.InScope known ∧ b'.scopes.Sees known := by
  obtain ⟨rfl, rfl⟩ := bindExpression_eq run
  exact ⟨e.bind_inScope sees, sees⟩

/-! ### Statements -/

theorem ScopeChain.Sees.push {c : ScopeChain} {known : List SymbolId} (sees : c.Sees known) :
    c.push.Sees known :=
  fun name id seen => sees name id ((c.get?_push name).symm.trans seen)

/-- Behind a statement, what it declares is known too. -/
theorem Statement.Binds.sees {s : Statement} {b b' : Binder} {s' : Bound.Statement}
    {known : List SymbolId} (run : s.Binds b s' b') (sees : b.scopes.Sees known) :
    b'.scopes.Sees (s'.declares ++ known) := by
  intro name id seen
  rcases run.visible seen with before | declared
  · exact List.mem_append_right _ (sees name id before)
  · exact List.mem_append_left _ declared

/-- In the body of a function its parameters and its own name can be seen. -/
theorem Binder.sees_enterFunction {b : Binder} {known : List SymbolId} (taken : Bool)
    (name : Identifier) (params : List (SymbolId × String × Ty)) (result : Ty)
    (sees : b.scopes.Sees known) :
    (b.enterFunction taken name params result).scopes.Sees
      (params.map (·.1) ++ b.symbols.size :: known) := by
  refine ScopeChain.Sees.push fun other id seen => ?_
  rcases declareParameters_visible seen with outside | parameter
  · refine List.mem_append_right _ (List.mem_cons.mpr ?_)
    have declared := (ScopeChain.get?_push ..).symm.trans outside
    exact (declare_visible declared).symm.imp_right (sees other id)
  · exact List.mem_append_left _ parameter

def Binder.inLoop (b : Binder) : Bool := b.jumps.head? = some .loop

/-- No loop around a function is one of its body. -/
theorem Binder.inLoop_enterFunction (b : Binder) (taken : Bool) (name : Identifier)
    (params : List (SymbolId × String × Ty)) (result : Ty) :
    (b.enterFunction taken name params result).inLoop = false := by
  have jumps := (declareParameters_grows
    ((b.declareFunction taken name params result).pushJump .function).pushScope params).1.jumps
  have head : (b.enterFunction taken name params result).jumps.head? = some .function :=
    congrArg List.head? jumps
  rw [inLoop, decide_eq_false_iff_not, head]
  exact nofun

theorem Binder.inLoop_of_checkJump {b : Binder} {span : Span} {keyword : String}
    (clean : (b.checkJump span keyword).found = []) : b.inLoop = true := by
  unfold checkJump at clean
  split at clean
  · exact absurd clean found_report_ne_nil
  · rename_i inside
    split at clean
    · exact absurd clean found_report_ne_nil
    · rename_i direct
      unfold inLoop
      cases jumps : b.jumps with
      | nil => simp [jumps] at inside
      | cons context =>
        cases context with
        | function => simp [jumps] at direct
        | loop => rfl

mutual

/-- A statement in which nothing was found is in scope. -/
theorem Statement.Binds.inScope {s : Statement} {b b' s' known} :
    s.Binds b s' b' → b'.found = [] → b.scopes.Sees known → s'.InScope b.inLoop known
  | .function redeclared parameters typed body, clean, sees => by
    obtain ⟨_, rfl⟩ := checkRedeclared_note redeclared
    obtain ⟨_, scopes, _⟩ := bindParameters_eq parameters
    obtain ⟨_, rfl⟩ := bindType?_note typed
    have inner := body.inScope (leaveFunction_clean clean).1
      (sees_enterFunction _ _ _ _ (scopes ▸ sees))
    rw [inLoop_enterFunction] at inner
    exact inner
  | .declare redeclared typed value, _, sees => by
    obtain ⟨_, rfl⟩ := checkRedeclared_note redeclared
    obtain ⟨_, rfl⟩ := bindType?_note typed
    exact (bindExpression_inScope value sees).1
  | .ifThen condition yes, clean, sees => by
    obtain ⟨test, sees⟩ := bindExpression_inScope condition sees
    obtain ⟨_, rfl⟩ := bindExpression_eq condition
    exact ⟨test, yes.inScope (found_note_eq_nil.mp clean).2 sees⟩
  | .ifElse condition yes no, clean, sees => by
    obtain ⟨test, sees⟩ := bindExpression_inScope condition sees
    obtain ⟨_, rfl⟩ := bindExpression_eq condition
    have second := (found_note_eq_nil.mp clean).2
    have branch := no.inScope second (yes.sees sees)
    rw [inLoop, yes.grows.jumps] at branch
    exact ⟨test, yes.inScope (no.grows.clean second) sees, branch⟩
  | .whileLoop condition body, clean, sees => by
    obtain ⟨test, sees⟩ := bindExpression_inScope condition sees
    exact ⟨test, body.inScope (found_note_eq_nil.mp clean).2 sees⟩
  | .doWhile body condition, clean, sees => by
    have test := (bindExpression_inScope condition (body.sees sees)).1
    obtain ⟨_, rfl⟩ := bindExpression_eq condition
    have inner := (found_note_eq_nil.mp (found_note_eq_nil.mp clean).2).2
    exact ⟨body.inScope inner sees, test⟩
  | .block statements, clean, sees => statements.inScope clean sees.push
  | .returnsUnit, _, _ => trivial
  | .returns value, _, sees | .print value, _, sees
  | .expression value, _, sees => (bindExpression_inScope value sees).1
  | .breakLoop, clean, _ | .continueLoop, clean, _ => inLoop_of_checkJump clean

theorem BindsList.inScope {statements b b' bound known} :
    BindsList statements b bound b' →
      b'.found = [] → b.scopes.Sees known → Bound.ListInScope b.inLoop known bound
  | .nil, _, _ => trivial
  | .cons first others, clean, sees => by
    have rest := others.inScope clean (first.sees sees)
    rw [inLoop, first.grows.jumps] at rest
    exact ⟨first.inScope (others.grows.clean clean) sees, rest⟩

end

end Bindery
