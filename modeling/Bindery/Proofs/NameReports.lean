import Bindery.Proofs.Lexical

/-!
Which names are complained about.

`Statement.unresolved` lists the references that the lexical rule gives no declaration, and
`Statement.redeclared` the declarations that repeat a name of their scope, both from the names of
the source alone. Binding reports exactly the two lists, in order (`Statement.Binds.tells`), and
its other findings have other codes. With the rule itself this describes all that binding does
with names (`SourceFile.names_resolved`).
-/

namespace Bindery

open Binder

/-! ### Names without a declaration, and with two -/

mutual

def Expression.unresolved (scopes : Scopes String) : Expression → List Identifier
  | .literal .. => []
  | .reference name => if name.name = "" ∨ scopes.Sees name.name then [] else [name]
  | .assignment target value _ => target.unresolved scopes ++ value.unresolved scopes
  | .binary left _ _ right _ => left.unresolved scopes ++ right.unresolved scopes
  | .unary _ _ operand _ => operand.unresolved scopes
  | .parenthesized inner _ => inner.unresolved scopes
  | .call target arguments .. =>
    target.unresolved scopes ++ unresolvedArguments scopes arguments
  | .ternary condition yes no _ =>
    condition.unresolved scopes ++ yes.unresolved scopes ++ no.unresolved scopes

def unresolvedArguments (scopes : Scopes String) : List Expression → List Identifier
  | [] => []
  | e :: rest => e.unresolved scopes ++ unresolvedArguments scopes rest

end

mutual

/-- The references of a statement that no declaration precedes. The value of a declaration comes
before the declaration, the body of a function behind its name. -/
def Statement.unresolved (scopes : Scopes String) : Statement → List Identifier
  | .function name parameters _ body .. =>
    unresolvedList (scopes.enter name.name (parameterNames parameters)) body
  | .declare _ _ _ value _ => value.unresolved scopes
  | .ifThen condition yes _ => condition.unresolved scopes ++ yes.unresolved scopes
  | .ifElse condition yes no _ =>
    condition.unresolved scopes ++ yes.unresolved scopes ++ no.unresolved (scopes.add yes.names)
  | .whileLoop condition body _ => condition.unresolved scopes ++ body.unresolved scopes
  | .doWhile body condition _ =>
    body.unresolved scopes ++ condition.unresolved (scopes.add body.names)
  | .block statements _ => unresolvedList ([] :: scopes) statements
  | .returns none _ => []
  | .returns (some value) _ => value.unresolved scopes
  | .breakLoop _ => []
  | .continueLoop _ => []
  | .print value _ => value.unresolved scopes
  | .expression value _ => value.unresolved scopes

def unresolvedList (scopes : Scopes String) : List Statement → List Identifier
  | [] => []
  | s :: rest => s.unresolved scopes ++ unresolvedList (scopes.add s.names) rest

end

def redeclaredName (scopes : Scopes String) (name : Identifier) : List Identifier :=
  if name.name ≠ "" ∧ scopes.Taken name.name then [name] else []

mutual

/-- The declarations of variables and functions in a statement whose name is declared in their scope
already. -/
def Statement.redeclared (scopes : Scopes String) : Statement → List Identifier
  | .function name parameters _ body .. =>
    redeclaredName scopes name ++
      redeclaredList (scopes.enter name.name (parameterNames parameters)) body
  | .declare name .. => redeclaredName scopes name
  | .ifThen _ yes _ => yes.redeclared scopes
  | .ifElse _ yes no _ => yes.redeclared scopes ++ no.redeclared (scopes.add yes.names)
  | .whileLoop _ body _ => body.redeclared scopes
  | .doWhile body .. => body.redeclared scopes
  | .block statements _ => redeclaredList ([] :: scopes) statements
  | .returns .. => []
  | .breakLoop _ => []
  | .continueLoop _ => []
  | .print .. => []
  | .expression .. => []

def redeclaredList (scopes : Scopes String) : List Statement → List Identifier
  | [] => []
  | s :: rest => s.redeclared scopes ++ redeclaredList (scopes.add s.names) rest

end

/-! ### Findings about names -/

def reported (code : Nat) (findings : List Finding) : List Diagnostic :=
  findings.filterMap fun
    | .problem d => if d.code = code then some d else none
    | .dangling _ => none

/-- What the findings say about names: the unknown ones and those declared twice, in order. -/
structure Tells (findings : List Finding) (unknown redeclared : List Identifier) : Prop where
  unknown : reported 2001 findings = unknown.map fun i => .on i.span .unknownName [i.name]
  redeclared : reported 2002 findings = redeclared.map fun i => .on i.span .redeclaredName [i.name]

namespace Tells

variable {first second : List Finding} {u u' d d' : List Identifier}

theorem nil : Tells [] [] [] := ⟨rfl, rfl⟩

/-- One list of findings after the other. -/
theorem append (left : Tells first u d) (right : Tells second u' d') :
    Tells (first ++ second) (u ++ u') (d ++ d') where
  unknown := by
    rw [reported, List.filterMap_append, List.map_append, ← left.unknown, ← right.unknown]
    rfl
  redeclared := by
    rw [reported, List.filterMap_append, List.map_append, ← left.redeclared, ← right.redeclared]
    rfl

/-- Findings about other things than names can stand behind. -/
theorem before_quiet (left : Tells first u d) (right : Tells second [] []) :
    Tells (first ++ second) u d := by
  simpa using left.append right

theorem unknownName (name : Identifier) :
    Tells [.on name.span .unknownName [name.name]] [name] [] := ⟨rfl, rfl⟩

theorem redeclaredName (name : Identifier) :
    Tells [.on name.span .redeclaredName [name.name]] [] [name] := ⟨rfl, rfl⟩

/-- Findings about other things than names. -/
theorem of_codes (other : ∀ d, .problem d ∈ first → 2002 < d.code) : Tells first [] [] := by
  constructor
  all_goals
    rw [reported, List.map_nil, List.filterMap_eq_nil_iff]
    intro f mem
    cases f with
    | dangling => rfl
    | problem d =>
      have := other d mem
      simp only [ite_eq_right_iff, reduceCtorEq, imp_false]
      omega

/-- Findings with other codes are about no names. -/
theorem quiet {low high : Nat} (within : Finding.All (Finding.Within low high) first)
    (other : 2002 ≤ low := by decide) : Tells first [] [] :=
  .of_codes fun _ mem => Nat.lt_of_le_of_lt other (within _ mem).above

theorem on (span : Span) {problem : Problem} (arguments : List String)
    (other : 2002 < problem.code := by decide) : Tells [.on span problem arguments] [] [] := by
  refine .of_codes fun d mem => ?_
  cases List.mem_singleton.mp mem
  exact other

theorem ite {c : Prop} [Decidable c] (left : Tells first u d) (right : Tells second u d) :
    Tells (if c then first else second) u d := by
  split
  · exact left
  · exact right

end Tells

variable {env : Environment} {scopes : Scopes (String × SymbolId)}

mutual

/-- The unknown names that binding finds in an expression are its unresolved references. -/
theorem Expression.bind_tells (shown : env.Shows scopes) :
    ∀ e : Expression, Tells (e.bind env).2 (e.unresolved scopes.names) []
  | .literal .. => by
    rw [Expression.bind]
    exact .nil
  | .reference name => by
    rw [Expression.bind, bindReference, Expression.unresolved]
    by_cases missing : name.name = ""
    · rw [if_pos (by simp [Identifier.isMissing, missing]), if_pos (.inl missing)]
      exact .nil
    · rw [if_neg (by simp [Identifier.isMissing, missing]), shown.get?_eq missing]
      cases found : scopes.resolve? name.name with
      | none =>
        rw [if_neg (by simp [missing, Scopes.resolve?_eq_none_iff.mp found])]
        exact .unknownName name
      | some =>
        have seen : scopes.names.Sees name.name := by
          by_contra unseen
          rw [Scopes.resolve?_eq_none_iff.mpr unseen] at found
          cases found
        obtain ⟨symbol, known, _⟩ := shown.names_of_resolve? found
        rw [if_pos (.inr seen)]
        simp only [known]
        exact .nil
  | .assignment target value _ => by
    have first := target.bind_tells shown
    have second := value.bind_tells shown
    rw [Expression.bind, Expression.unresolved]
    simp only
    split
    · exact ((first.before_quiet (.ite (.on _ _) .nil)).append second).before_quiet
        (.quiet (.checkAssignable _ _))
    · exact (first.append second).before_quiet (.ite .nil (.on _ _))
  | .binary left _ _ right _ => by
    have both := (left.bind_tells shown).append (right.bind_tells shown)
    rw [Expression.bind, Expression.unresolved]
    split
    · exact both
    · split
      · exact both
      · exact both.before_quiet (.on _ _)
  | .unary _ _ operand _ => by
    have inner := operand.bind_tells shown
    rw [Expression.bind, Expression.unresolved]
    split
    · exact inner
    · split
      · exact inner
      · exact inner.before_quiet (.on _ _)
  | .parenthesized inner _ => by
    rw [Expression.bind, Expression.unresolved]
    exact inner.bind_tells shown
  | .call target arguments .. => by
    have parts := (target.bind_tells shown).append (bindArguments_tells shown arguments)
    rw [Expression.bind, Expression.unresolved]
    simp only
    split
    · exact (parts.before_quiet (.quiet (.checkArgumentCount _ _ _))).before_quiet
        (.quiet (.checkArguments _ _))
    · exact parts.before_quiet (.ite .nil (.on _ _))
  | .ternary condition yes no _ => by
    rw [Expression.bind, Expression.unresolved]
    exact (((condition.bind_tells shown).append (yes.bind_tells shown)).append
      (no.bind_tells shown)).before_quiet (.quiet (.checkCondition _))

theorem bindArguments_tells (shown : env.Shows scopes) :
    ∀ arguments : List Expression,
      Tells (bindArguments env arguments).2 (unresolvedArguments scopes.names arguments) []
  | [] => by
    rw [bindArguments]
    exact .nil
  | e :: rest => by
    rw [bindArguments, unresolvedArguments]
    exact (e.bind_tells shown).append (bindArguments_tells shown rest)

end

namespace Binder

def Tells (b b' : Binder) (unknown redeclared : List Identifier) : Prop :=
  ∃ findings, b'.found = findings.reverse ++ b.found ∧ Bindery.Tells findings unknown redeclared

namespace Tells

variable {b b' b'' : Binder} {u u' d d' : List Identifier}

theorem refl (b : Binder) : b.Tells b [] [] := ⟨[], rfl, .nil⟩

/-- One step after the other. -/
theorem trans (first : b.Tells b' u d) (second : b'.Tells b'' u' d') :
    b.Tells b'' (u ++ u') (d ++ d') := by
  obtain ⟨findings, found, told⟩ := first
  obtain ⟨others, later, more⟩ := second
  refine ⟨findings ++ others, ?_, told.append more⟩
  rw [later, found, List.reverse_append, List.append_assoc]

theorem trans_quiet (first : b.Tells b' u d) (second : b'.Tells b'' [] []) : b.Tells b'' u d := by
  simpa using first.trans second

theorem note {findings : List Finding} (told : Bindery.Tells findings u d) :
    b.Tells (b.note findings) u d :=
  ⟨findings, found_note b findings, told⟩

/-- Names and jumps do not matter for what is found. -/
theorem of_found (h : b.Tells b' u d) (same : b''.found = b'.found) : b.Tells b'' u d := by
  obtain ⟨findings, found, told⟩ := h
  exact ⟨findings, same.trans found, told⟩

/-- Nothing is said about names where other things are noted. -/
theorem quiet {low high : Nat} (notes : b.Notes (Finding.Within low high) b')
    (other : 2002 ≤ low := by decide) : b.Tells b' [] [] := by
  obtain ⟨findings, found, within⟩ := notes
  exact ⟨findings, found, .quiet within other⟩

/-- A name that its scope has already is complained about. -/
theorem checkRedeclared {scopes : Scopes (String × SymbolId)} {name : Identifier} {taken : Bool}
    (run : b.checkRedeclared name = (taken, b')) (shown : b.Shows scopes) :
    b.Tells b' [] (redeclaredName scopes.names name) := by
  have held : b.scopes.declares name.name = true ↔ _ := shown.declares_iff
  unfold Binder.checkRedeclared at run
  unfold redeclaredName
  split at run
  · cases run
    rw [if_pos (held.mp ‹_›)]
    exact note (.redeclaredName name)
  · cases run
    rw [if_neg (held.not.mp ‹_›)]
    exact refl b

/-- An expression complains about the names it cannot resolve. -/
theorem bindExpression {scopes : Scopes (String × SymbolId)} {e : Expression}
    {e' : Bound.Expression} (run : b.bindExpression e = (e', b')) (shown : b.Shows scopes) :
    b.Tells b' (e.unresolved scopes.names) [] := by
  obtain ⟨_, rfl⟩ := bindExpression_eq run
  exact note (e.bind_tells shown)

theorem declareNew (symbol : Symbol) (taken : Bool) (name : Identifier) (id : SymbolId) :
    b.Tells ((b.alloc symbol).declare taken name id) [] [] :=
  (refl b).of_found (declare_found ..)

theorem enterFunction (taken : Bool) (name : Identifier) (params : List (SymbolId × String × Ty))
    (result : Ty) : b.Tells (b.enterFunction taken name params result) [] [] :=
  (refl b).of_found (found_enterFunction b taken name params result)

end Tells

end Binder

mutual

/-- The names that binding complains about in a statement are its unresolved references and its
repeated declarations. -/
theorem Statement.Binds.tells {s : Statement} {b b' s'} :
    s.Binds b s' b' → ∀ ⦃scopes⦄, b.Shows scopes →
      b.Tells b' (s.unresolved scopes.names) (s.redeclared scopes.names)
  | .function redeclared parameters typed body, _, before => by
    obtain ⟨prepared, same, named⟩ := before.prepare redeclared parameters typed
    have inside := body.tells
      (prepared.enterFunction same named (ne_empty_of_mem_params parameters))
    rw [← zip_parameterNames parameters,
      Scopes.names_enter _ _ (by rw [← bindParameters_names parameters]; simp)] at inside
    have outside := ((Tells.checkRedeclared redeclared before).trans_quiet
      (.quiet (.bindParameters parameters))).trans_quiet (.quiet (.bindType? typed))
    exact (outside.trans_quiet (.enterFunction _ _ _ _)).trans inside |>.trans_quiet
      (.quiet (.leaveFunction _ _ _ _))
  | .declare redeclared typed value, _, before => by
    have first := (Tells.checkRedeclared redeclared before).trans_quiet (.quiet (.bindType? typed))
    obtain ⟨_, rfl⟩ := checkRedeclared_note redeclared
    obtain ⟨_, rfl⟩ := bindType?_note typed
    have both := first.trans (.bindExpression value before)
    rw [List.append_nil] at both
    exact (both.trans_quiet (.declareNew _ _ _ _)).trans_quiet
      (.note (.quiet (.checkAssignable _ _)))
  | .ifThen condition yes, _, before => by
    have first := Tells.bindExpression condition before
    obtain ⟨_, rfl⟩ := bindExpression_eq condition
    exact (first.trans (yes.tells before)).trans_quiet (.note (.quiet (.checkCondition _)))
  | .ifElse condition yes no, _, before => by
    have first := Tells.bindExpression condition before
    obtain ⟨_, rfl⟩ := bindExpression_eq condition
    have second := no.tells (yes.shows before)
    rw [Scopes.names_add _ yes.length_declares] at second
    exact ((first.trans (yes.tells before)).trans second).trans_quiet
      (.note (.quiet (.checkCondition _)))
  | .whileLoop condition body, _, before => by
    have first := Tells.bindExpression condition before
    obtain ⟨_, rfl⟩ := bindExpression_eq condition
    exact ((first.trans (body.tells before)).of_found rfl).trans_quiet
      (.note (.quiet (.checkCondition _)))
  | .doWhile body condition, _, before => by
    have second := Tells.bindExpression condition (body.shows before)
    rw [Scopes.names_add _ body.length_declares] at second
    have both := ((body.tells before).of_found rfl).trans second
    rw [List.append_nil] at both
    exact both.trans_quiet (.note (.quiet (.checkCondition _)))
  | .block statements, _, before => statements.tells before.pushScope
  | .returnsUnit, _, _ => .refl _
  | .returns value, _, before | .print value, _, before
  | .expression value, _, before => .bindExpression value before
  | .breakLoop, _, _ | .continueLoop, _, _ => .quiet (.checkJump _ _)

theorem BindsList.tells {statements b b' bound} :
    BindsList statements b bound b' → ∀ ⦃scopes⦄, b.Shows scopes →
        b.Tells b' (unresolvedList scopes.names statements) (redeclaredList scopes.names statements)
  | .nil, _, _ => .refl _
  | .cons first others, _, before => by
    have later := others.tells (first.shows before)
    rw [Scopes.names_add _ first.length_declares] at later
    exact (first.tells before).trans later

end

/-! ### Files -/

/-- The diagnostics of a code among all diagnostics of a binder. -/
theorem Binder.filter_diagnostics (b : Binder) (code : Nat) :
    b.diagnostics.filter (·.code = code) = reported code b.found.reverse := by
  rw [diagnostics, reported, List.filter_filterMap]
  refine List.filterMap_congr fun finding _ => ?_
  cases finding with
  | problem => simp [Option.filter]
  | dangling => rfl

/-- Without names that stand for nothing there is no such finding. -/
theorem Binder.dangling?_eq_none {b : Binder} (problems : OnlyProblems b.found) :
    b.dangling? = none := by
  rw [dangling?, List.findSome?_eq_none_iff]
  intro finding mem
  cases finding with
  | problem => rfl
  | dangling id => exact absurd (List.mem_reverse.mp mem) (problems id)

/-- Names are resolved lexically. Every symbol of the bound tree is in the table, no name stands
for a position outside of it, and each declaration has a symbol of its own. Every reference is
bound to the first declaration of its name that precedes it in the innermost scope that has one.
The unknown names are reported, exactly the references without such a declaration, and so are
the variables and functions whose name is declared in their scope already. -/
theorem SourceFile.names_resolved (file : SourceFile) :
    (∀ id ∈ Bound.mentionsOfList file.bind.1.statements, id < file.bind.1.symbols.size) ∧
      (Binder.new.bindFile file).2.dangling? = none ∧
      (Bound.introducesList file.bind.1.statements).Nodup ∧
      ResolvesList file.bind.1.symbols [[]] file.statements file.bind.1.statements ∧
      file.bind.2.filter (·.code = 2001) =
        (unresolvedList [[]] file.statements).map (fun i => .on i.span .unknownName [i.name]) ∧
      file.bind.2.filter (·.code = 2002) =
        (redeclaredList [[]] file.statements).map
          (fun i => .on i.span .redeclaredName [i.name]) := by
  obtain ⟨bound, b, run, program, diagnostics⟩ := file.binds
  have resolved : ResolvesList b.symbols [[]] file.statements bound :=
    run.resolves .new fun _ _ known => known
  obtain ⟨findings, found, told⟩ := (run.tells .new).trans_quiet
    (.note (.quiet (.problems (Bound.within_checkBody .unit bound))))
  have inOrder : (b.note ((Bound.checkBody .unit bound).2.map .problem)).found.reverse =
      findings := by
    rw [found, Binder.new, List.append_nil, List.reverse_reverse]
  have grounded := (run.grounded .new).note (.problems (Bound.checkBody .unit bound).2)
  rw [program, diagnostics, Binder.filter_diagnostics, Binder.filter_diagnostics, inOrder]
  refine ⟨resolved.mentions_lt, ?_, run.introduces.nodup, resolved, told.unknown,
    told.redeclared⟩
  rw [Binder.bindFile, run.bind_eq []]
  exact Binder.dangling?_eq_none grounded.found

end Bindery
